import Acceptor.Pattern.Grammar
import Acceptor.Pattern.Regroup

/-!
# Reading follows the grammar

The reader accepts a text just if the grammar derives it as a choice, and it builds
the pattern of the derivation (`parse_of_derives`, `derives_of_parse`).

A derivation is followed by the reader: `Phrase.Read` says for each kind of phrase what
reading it does to the group around it. Conversely the reader remembers enough of what
it has read: a group `Holds` a text if its parts are derived from the pieces of that
text, and every step keeps this up. When the text ends, the outermost group holds all
of it.
-/

namespace Acceptor.Pattern

/-! ## Alternatives and factors that are waiting -/

/-- The alternatives before a bar, if there is one, derive the text up to it. -/
def DerivesBar : Option (Pattern Char) → List Char → Prop
  | none, t => t = []
  | some p, t => ∃ u, t = u ++ ['|'] ∧ Derives .choice u p

/-- The factors, if there are any, derive the text. -/
def DerivesFactors : Option (Pattern Char) → List Char → Prop
  | none, t => t = []
  | some p, t => Derives .factors t p

theorem DerivesBar.choice {before : Option (Pattern Char)} {t u : List Char} {p : Pattern Char}
    (hbefore : DerivesBar before t) (hp : Derives .sequence u p) :
    Derives .choice (t ++ u) (addAlternative before p) := by
  cases before with
  | none =>
    obtain rfl : t = [] := hbefore
    exact .single hp
  | some alternatives =>
    obtain ⟨s, rfl, hs⟩ := hbefore
    rw [List.append_assoc, List.singleton_append]
    exact .bar hs hp

theorem DerivesFactors.add {before : Option (Pattern Char)} {t u : List Char}
    {p : Pattern Char} (hbefore : DerivesFactors before t) (hp : Derives .factor u p) :
    DerivesFactors (some (addFactor before p)) (t ++ u) := by
  cases before with
  | none =>
    obtain rfl : t = [] := hbefore
    exact .first hp
  | some factors => exact .next hbefore hp

theorem DerivesFactors.sequence {before : Option (Pattern Char)} {t : List Char}
    (hbefore : DerivesFactors before t) : Derives .sequence t (before.getD .empty) := by
  cases before with
  | none =>
    obtain rfl : t = [] := hbefore
    exact .nothing
  | some factors => exact .some hbefore

namespace Group

theorem value_eq (g : Group) :
    g.value = addAlternative g.alternatives (g.sequence.getD .empty) := by
  obtain ⟨_ | _, _, _⟩ := g <;> rfl

/-! ## What the reader does with a piece of text -/

/-- Inside of whatever groups, reading the text `t` turns the group `g` into `g'`. -/
def Reads (g : Group) (t : List Char) (g' : Group) : Prop :=
  ∀ (offset : Nat) (outer : List (Nat × Group)) (rest : List Char),
    parseFrom offset g outer (t ++ rest) = parseFrom (offset + t.length) g' outer rest

theorem reads_nil (g : Group) : g.Reads [] g := fun _ _ _ => rfl

theorem Reads.append {g g' g'' : Group} {t u : List Char} (ht : g.Reads t g')
    (hu : g'.Reads u g'') : g.Reads (t ++ u) g'' := by
  intro offset outer rest
  rw [List.append_assoc, ht, hu, List.length_append, Nat.add_assoc]

theorem reads_plain (g : Group) {c : Char} (hc : isMeta c = false) :
    g.Reads [c] (g.push (.literal c)) := fun offset outer rest =>
  parseFrom_plain offset g outer rest hc

theorem reads_escaped (g : Group) {c : Char} (hc : isMeta c = true) :
    g.Reads ['\\', c] (g.push (.literal c)) := fun offset outer rest =>
  parseFrom_escape offset g outer rest hc

theorem reads_bar (g : Group) : g.Reads ['|'] g.bar := fun offset outer rest =>
  parseFrom_bar offset g outer rest

theorem reads_star (g : Group) (p : Pattern Char) :
    (g.push p).Reads ['*'] (g.push (.star p)) := fun offset outer rest =>
  parseFrom_star offset outer rest rfl

theorem Reads.group {t : List Char} {inner : Group} (ht : Reads {} t inner) (g : Group) :
    g.Reads ('(' :: t ++ [')']) (g.push inner.value) := by
  intro offset outer rest
  have htext : '(' :: t ++ [')'] ++ rest = '(' :: (t ++ ')' :: rest) := by simp
  have hlength : offset + 1 + t.length + 1 = offset + ('(' :: t ++ [')']).length := by
    simp only [List.length_append, List.length_cons, List.length_nil]
    omega
  rw [htext, parseFrom_open, ht, parseFrom_close, hlength]

end Group

/-! ## Derivations are followed -/

/-- What reading a phrase that denotes `p` does to the group around it. An atom and a
factor become the last factor of any group; factors and sequences are read where no
factor stands yet, and choices in a new group. -/
def Phrase.Read : Phrase → List Char → Pattern Char → Prop
  | .atom, t, p | .factor, t, p => ∀ g : Group, g.Reads t (g.push p)
  | .factors, t, p => ∀ g : Group, g.sequence = none →
      ∃ g', g.Reads t g' ∧ g'.alternatives = g.alternatives ∧ g'.sequence = some p
  | .sequence, t, p => ∀ g : Group, g.sequence = none →
      ∃ g', g.Reads t g' ∧ g'.alternatives = g.alternatives ∧ g'.sequence.getD .empty = p
  | .choice, t, p => ∃ g', Group.Reads {} t g' ∧ g'.value = p

theorem Derives.read {kind : Phrase} {t : List Char} {p : Pattern Char}
    (h : Derives kind t p) : kind.Read t p := by
  induction h with
  | single _ ih =>
    obtain ⟨g, hreads, halternatives, rfl⟩ := ih {} rfl
    exact ⟨g, hreads, by rw [Group.value_eq, halternatives]; rfl⟩
  | bar _ _ ihp ihq =>
    obtain ⟨g, hreads, rfl⟩ := ihp
    obtain ⟨g', hreads', halternatives, rfl⟩ := ihq g.bar rfl
    refine ⟨g', ?_, by rw [Group.value_eq, halternatives]; rfl⟩
    exact hreads.append (g.reads_bar.append hreads')
  | nothing =>
    intro g hg
    exact ⟨g, g.reads_nil, rfl, by rw [hg]; rfl⟩
  | some _ ih =>
    intro g hg
    obtain ⟨g', hreads, halternatives, hsequence⟩ := ih g hg
    exact ⟨g', hreads, halternatives, by rw [hsequence]; rfl⟩
  | first _ ih =>
    intro g hg
    exact ⟨_, ih g, rfl, by simp only [Group.push, Group.sequence] at hg ⊢; rw [hg]⟩
  | next _ _ ihp ihq =>
    intro g hg
    obtain ⟨g', hreads, halternatives, hsequence⟩ := ihp g hg
    refine ⟨_, hreads.append (ihq g'), halternatives, ?_⟩
    simp only [Group.push, Group.sequence] at hsequence ⊢
    rw [hsequence]
  | once _ ih => exact ih
  | star _ ih => exact fun g => (ih g).append (g.reads_star _)
  | group _ ih =>
    intro g
    obtain ⟨inner, hreads, rfl⟩ := ih
    exact hreads.group g
  | escaped hc => exact fun g => g.reads_escaped hc
  | plain hc => exact fun g => g.reads_plain hc

theorem parse_of_derives {text : String} {p : Pattern Char}
    (h : Derives .choice text.toList p) : parse text = .ok p := by
  obtain ⟨g, hreads, rfl⟩ := h.read
  have hread := hreads 0 [] []
  rw [List.append_nil] at hread
  rw [parse, hread, parseFrom]

/-! ## What is accepted is derived -/

/-- The parts of the group are derived from the pieces of the text. -/
inductive Group.Holds : Group → List Char → Prop
  | start {alternatives : Option (Pattern Char)} {s : List Char} :
      DerivesBar alternatives s → Holds ⟨alternatives, none, none⟩ s
  | behind {alternatives factors : Option (Pattern Char)} {s t u : List Char}
      {p : Pattern Char} :
      DerivesBar alternatives s → DerivesFactors factors t → Derives .factor u p →
        Holds ⟨alternatives, factors, some p⟩ (s ++ t ++ u)

namespace Group.Holds

variable {g : Group} {t : List Char}

/-- The factors of the current alternative stand behind the last bar. -/
theorem pieces (h : g.Holds t) :
    ∃ s u, t = s ++ u ∧ DerivesBar g.alternatives s ∧ DerivesFactors g.sequence u := by
  cases h with
  | start hs => exact ⟨t, [], (List.append_nil t).symm, hs, rfl⟩
  | @behind _ factors s t u p hs ht hu =>
    refine ⟨s, t ++ u, List.append_assoc s t u, hs, ?_⟩
    have hadd := ht.add hu
    cases factors <;> exact hadd

theorem value (h : g.Holds t) : Derives .choice t g.value := by
  obtain ⟨s, u, rfl, hs, hu⟩ := h.pieces
  rw [Group.value_eq]
  exact hs.choice hu.sequence

theorem push (h : g.Holds t) {u : List Char} {p : Pattern Char} (hp : Derives .factor u p) :
    (g.push p).Holds (t ++ u) := by
  obtain ⟨s, v, rfl, hs, hv⟩ := h.pieces
  exact .behind hs hv hp

theorem bar (h : g.Holds t) : g.bar.Holds (t ++ ['|']) := .start ⟨t, rfl, h.value⟩

theorem star? (h : g.Holds t) {g' : Group} (hg : g.star? = some g') :
    g'.Holds (t ++ ['*']) := by
  cases h with
  | start _ => cases hg
  | behind hs ht hu =>
    cases hg
    rw [List.append_assoc]
    exact .behind hs ht hu.star

end Group.Holds

/-- The text before the current group: what the groups around it hold, each before the
bracket that opens the next one. -/
def Encloses : List (Nat × Group) → List Char → Prop
  | [], before => before = []
  | (_, g) :: outer, before =>
    ∃ s t, before = s ++ t ++ ['('] ∧ Encloses outer s ∧ g.Holds t

theorem derives_of_parseFrom {offset : Nat} {g : Group} {outer : List (Nat × Group)}
    {before t rest : List Char} {p : Pattern Char} (houter : Encloses outer before)
    (hg : g.Holds t) (hp : parseFrom offset g outer rest = .ok p) :
    Derives .choice (before ++ t ++ rest) p := by
  induction offset, g, outer, rest using parseFrom_induction generalizing before t with
  | finished offset g =>
    obtain rfl : before = [] := houter
    cases hp
    rw [List.nil_append, List.append_nil]
    exact hg.value
  | unclosed => cases hp
  | dangling =>
    rw [parseFrom_danglingEscape] at hp
    cases hp
  | unknown offset g outer c rest hc =>
    rw [parseFrom_unknownEscape _ _ _ _ hc] at hp
    cases hp
  | unmatched =>
    rw [parseFrom_unmatchedClose] at hp
    cases hp
  | nothing offset g outer rest hstar =>
    rw [parseFrom_nothingToRepeat _ _ _ hstar] at hp
    cases hp
  | escape offset g outer c rest hc ih =>
    rw [parseFrom_escape _ _ _ _ hc] at hp
    have hread := ih houter (hg.push (.once (.escaped hc))) hp
    simpa using hread
  | opening offset g outer rest ih =>
    rw [parseFrom_open] at hp
    have hread := ih ⟨before, t, rfl, houter, hg⟩ (.start rfl) hp
    simpa using hread
  | close offset g opened around outer rest ih =>
    rw [parseFrom_close] at hp
    obtain ⟨s, u, rfl, hs, hu⟩ := houter
    have hread := ih hs (hu.push (.once (.group hg.value))) hp
    simpa using hread
  | bar offset g outer rest ih =>
    rw [parseFrom_bar] at hp
    have hread := ih houter hg.bar hp
    simpa using hread
  | star offset g outer rest g' hstar ih =>
    rw [parseFrom_star _ _ _ hstar] at hp
    have hread := ih houter (hg.star? hstar) hp
    simpa using hread
  | plain offset g outer c rest hc ih =>
    rw [parseFrom_plain _ _ _ _ hc] at hp
    have hread := ih houter (hg.push (.once (.plain hc))) hp
    simpa using hread

theorem derives_of_parse {text : String} {p : Pattern Char} (hp : parse text = .ok p) :
    Derives .choice text.toList p := by
  have houter : Encloses [] [] := rfl
  have hstart : Group.Holds {} [] := .start rfl
  exact derives_of_parseFrom houter hstart hp

end Acceptor.Pattern
