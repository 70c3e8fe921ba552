import Acceptor.Pattern.Descent
import Acceptor.Proofs.Pattern.Reading

/-!
# The two readers agree

Reading by descent gives the same pattern or stops at the same fault as reading in one
pass (`descend_eq_parse`). Each function of the descent consumes a piece of the text
that is derived as a phrase of its kind, or it stops at a fault at which the one pass
stops as well, whatever groups are open by then. The statements are made for both
outcomes at once, and put together along the calls.

So both readers follow the grammar (`parse_eq_ok_iff_derives`). Since they build one
pattern, no text denotes two.
-/

namespace Acceptor.Pattern

namespace Descent

/-- The outcome is a fault of one kind or a value of the other. -/
def Yields {α : Type} (outcome : Except ParseError α) (fails : ParseError → Prop)
    (returns : α → Prop) : Prop :=
  match outcome with
  | .error fault => fails fault
  | .ok a => returns a

theorem Yields.bind {α β : Type} {first : Except ParseError α}
    {next : α → Except ParseError β} {fails fails' : ParseError → Prop} {returns : α → Prop}
    {returns' : β → Prop} (hfirst : Yields first fails returns)
    (hfails : ∀ fault, fails fault → fails' fault)
    (hnext : ∀ a, returns a → Yields (next a) fails' returns') :
    Yields (first >>= next) fails' returns' := by
  cases first with
  | error fault => exact hfails fault hfirst
  | ok a => exact hnext a hfirst

/-- The text begins with `t`, and behind it `rest` is left. -/
structure Consumed (offset : Nat) (text t : List Char) (offset' : Nat) (rest : List Char) :
    Prop where
  text_eq : text = t ++ rest
  offset_eq : offset' = offset + t.length

namespace Consumed

variable {offset offset' offset'' : Nat} {text rest rest' t u : List Char}

theorem nil : Consumed offset text [] offset text := ⟨rfl, rfl⟩

theorem trans (ht : Consumed offset text t offset' rest)
    (hu : Consumed offset' rest u offset'' rest') : Consumed offset text (t ++ u) offset'' rest' where
  text_eq := by rw [ht.text_eq, hu.text_eq, List.append_assoc]
  offset_eq := by rw [hu.offset_eq, ht.offset_eq, List.length_append, Nat.add_assoc]

theorem cons (ht : Consumed (offset + 1) text t offset' rest) (c : Char) :
    Consumed offset (c :: text) (c :: t) offset' rest where
  text_eq := congrArg (c :: ·) ht.text_eq
  offset_eq := by rw [ht.offset_eq, List.length_cons, Nat.add_right_comm, Nat.add_assoc]

/-- A piece that can be read is passed over. -/
theorem parseFrom_eq (ht : Consumed offset text t offset' rest) {g g' : Group}
    (hreads : g.Reads t g') (outer : List (Nat × Group)) :
    parseFrom offset g outer text = parseFrom offset' g' outer rest := by
  rw [ht.text_eq, hreads, ht.offset_eq]

end Consumed

/-- In whatever groups, the one pass stops at the fault, if the current group is one of
`groups`. -/
def Stops (offset : Nat) (text : List Char) (groups : Group → Prop) (fault : ParseError) :
    Prop :=
  ∀ g outer, groups g → parseFrom offset g outer text = .error fault

/-- A star here would have nothing to repeat, or no star stands here. -/
def NoStar (text : List Char) (g : Group) : Prop := g.last = none ∨ text.head? ≠ some '*'

/-- No atom stands at the beginning of the text, and no star either. -/
def NoAtom (text : List Char) : Prop := ∀ c ∈ text.head?, c = ')' ∨ c = '|'

theorem last_eq_none {g : Group} (hg : g.sequence = none) : g.last = none := by
  obtain ⟨_, _ | _, _ | _⟩ := g <;> first | rfl | cases hg

theorem stars_consumed (p : Pattern Char) (offset : Nat) (text : List Char) {u : List Char}
    (hp : Derives .factor u p) :
    let read := stars p offset text
    ∃ t, Consumed offset text t read.2.offset read.2.text ∧
      Derives .factor (u ++ t) read.1 ∧ read.2.text.head? ≠ some '*' := by
  induction p, offset, text using stars.induct generalizing u with
  | case1 p offset rest q left hstars ih =>
    obtain ⟨t, ht, hderives, hhead⟩ := ih hp.star
    rw [hstars] at ht hderives hhead
    rw [stars, hstars]
    refine ⟨'*' :: t, ht.cons '*', ?_, hhead⟩
    simpa using hderives
  | case2 p offset text hstar =>
    rw [stars.eq_2 p offset text hstar]
    refine ⟨[], .nil, ?_, ?_⟩
    · rw [List.append_nil]
      exact hp
    · intro hhead
      obtain ⟨rest, rfl⟩ := List.head?_eq_some_iff.1 hhead
      exact hstar rest rfl

mutual

theorem choice_yields (offset : Nat) (before : Option (Pattern Char)) (text : List Char) :
    Yields (choice offset before text) (Stops offset text fun g => g.sequence = none)
      fun (p, left) => ∃ t, Consumed offset text t left.offset left.text ∧
        (∀ c ∈ left.text.head?, c = ')') ∧
          ∀ u, DerivesBar before u → Derives .choice (u ++ t) p := by
  rw [choice]
  refine (sequence_yields offset none text).bind ?_ ?_
  · exact fun fault hstops g outer hg => hstops g outer (.inl (last_eq_none hg))
  · rintro ⟨p, left⟩ ⟨t, ht, hhead, hfactors⟩
    have hp : Derives .sequence t p := hfactors [] rfl
    dsimp only
    split
    · next rest hbar =>
      have hlength : rest.length < text.length := by
        have hleft := left.length_lt
        rw [hbar, List.length_cons] at hleft
        omega
      refine (choice_yields (left.offset + 1) (some (addAlternative before p)) rest).bind ?_ ?_
      · intro fault hstops g outer hg
        obtain ⟨g', hreads, -⟩ := hp.read g hg
        rw [ht.parseFrom_eq hreads, hbar, parseFrom_bar]
        exact hstops g'.bar outer rfl
      · rintro ⟨q, last⟩ ⟨u, hu, hend, hq⟩
        have hrest : Consumed left.offset left.text ('|' :: u) last.offset last.text :=
          hbar ▸ hu.cons '|'
        refine ⟨t ++ '|' :: u, ht.trans hrest, hend, fun v hv => ?_⟩
        have hchoice := hq _ ⟨_, rfl, hv.choice hp⟩
        simpa using hchoice
    · next hbar =>
      refine ⟨t, ht, fun c hc => ?_, fun u hu => hu.choice hp⟩
      rcases hhead c hc with rfl | rfl
      · rfl
      · obtain ⟨rest, hrest⟩ := List.head?_eq_some_iff.1 hc
        exact absurd hrest (hbar rest)
termination_by (text.length, 3)

theorem sequence_yields (offset : Nat) (before : Option (Pattern Char)) (text : List Char) :
    Yields (sequence offset before text) (Stops offset text (NoStar text))
      fun (p, left) => ∃ t, Consumed offset text t left.offset left.text ∧ NoAtom left.text ∧
        ∀ u, DerivesFactors before u → Derives .sequence (u ++ t) p := by
  rw [sequence]
  refine (factor_yields offset text).bind (fun _ hstops => hstops) ?_
  rintro (_ | ⟨p, left⟩) hread
  · refine ⟨[], .nil, hread, fun u hu => ?_⟩
    rw [List.append_nil]
    exact hu.sequence
  · obtain ⟨t, ht, hp, hhead⟩ := hread
    have hleft := left.length_lt
    refine (sequence_yields left.offset (some (addFactor before p)) left.text).bind ?_ ?_
    · intro fault hstops g outer _
      rw [ht.parseFrom_eq (hp.read g)]
      exact hstops _ outer (.inr hhead)
    · rintro ⟨q, last⟩ ⟨u, hu, hend, hq⟩
      refine ⟨t ++ u, ht.trans hu, hend, fun v hv => ?_⟩
      rw [← List.append_assoc]
      exact hq _ (hv.add hp)
termination_by (text.length, 2)

theorem factor_yields (offset : Nat) (text : List Char) :
    Yields (factor offset text) (Stops offset text (NoStar text))
      fun
        | none => NoAtom text
        | some (p, left) => ∃ t, Consumed offset text t left.offset left.text ∧
            Derives .factor t p ∧ left.text.head? ≠ some '*' := by
  rw [factor]
  refine (atom_yields offset text).bind (fun _ hstops => hstops) ?_
  rintro (_ | ⟨p, left⟩) hread
  · exact hread
  · obtain ⟨t, ht, hp⟩ := hread
    obtain ⟨u, hu, hq, hhead⟩ := stars_consumed p left.offset left.text (.once hp)
    exact ⟨t ++ u, ht.trans hu, hq, hhead⟩
termination_by (text.length, 1)

theorem atom_yields (offset : Nat) (text : List Char) :
    Yields (atom offset text) (Stops offset text (NoStar text))
      fun
        | none => NoAtom text
        | some (p, left) => ∃ t, Consumed offset text t left.offset left.text ∧
            Derives .atom t p := by
  rw [atom.eq_def]
  split
  · simp [Yields, NoAtom, pure, Except.pure]
  · simp [Yields, NoAtom, pure, Except.pure]
  · simp [Yields, NoAtom, pure, Except.pure]
  · next rest =>
    rintro g outer (hg | hhead)
    · exact parseFrom_nothingToRepeat offset outer rest (by rw [Group.star?, hg]; rfl)
    · exact absurd rfl hhead
  · next rest =>
    refine (choice_yields (offset + 1) none rest).bind ?_ ?_
    · intro fault hstops g outer _
      rw [parseFrom_open]
      exact hstops {} _ rfl
    · rintro ⟨p, left⟩ ⟨t, ht, hhead, hderives⟩
      have hp : Derives .choice t p := hderives [] rfl
      dsimp only
      split
      · next last hclose =>
        have hrest : Consumed left.offset left.text [')'] (left.offset + 1) last :=
          hclose ▸ Consumed.nil.cons ')'
        exact ⟨_, (ht.trans hrest).cons '(', .group hp⟩
      · next hclose =>
        intro g outer _
        have hend : left.text = [] := by
          cases htext : left.text with
          | nil => rfl
          | cons c last =>
            obtain rfl := hhead c (by rw [htext]; rfl)
            exact absurd htext (hclose last)
        obtain ⟨inner, hreads, -⟩ := hp.read
        rw [parseFrom_open, ht.parseFrom_eq hreads, hend]
        rfl
  · exact fun g outer _ => parseFrom_danglingEscape offset g outer
  · next c rest =>
    split
    · next hc => exact ⟨['\\', c], ⟨rfl, rfl⟩, .escaped hc⟩
    · next hc =>
      exact fun g outer _ => parseFrom_unknownEscape offset g outer rest (eq_false_of_ne_true hc)
  · next c rest hclose hbar hstar hopen hdangling hescape =>
    have hbackslash : c ≠ '\\' := by
      intro hc
      cases rest with
      | nil => exact hdangling hc rfl
      | cons d rest => exact hescape d rest hc rfl
    have hc : isMeta c = false :=
      isMeta_eq_false_iff.2 ⟨hbackslash, hopen, hclose, hbar, hstar⟩
    exact ⟨[c], ⟨rfl, rfl⟩, .plain hc⟩
termination_by (text.length, 0)

end

end Descent

/-- Both ways of reading give the same pattern or the same fault. -/
theorem descend_eq_parse (text : String) : descend text = parse text := by
  have hyields := Descent.choice_yields 0 none text.toList
  rw [descend]
  cases hread : Descent.choice 0 none text.toList with
  | error fault =>
    rw [hread] at hyields
    have hparse : parse text = .error fault := hyields {} [] rfl
    rw [hparse]
    rfl
  | ok read =>
    obtain ⟨p, offset, rest, hlength⟩ := read
    rw [hread] at hyields
    obtain ⟨t, ht, hhead, hderives⟩ := hyields
    have hp : Derives .choice t p := hderives [] rfl
    obtain ⟨g, hreads, hvalue⟩ := hp.read
    have hparse : parse text = parseFrom offset g [] rest := ht.parseFrom_eq hreads []
    rw [hparse]
    cases rest with
    | nil => rw [parseFrom, hvalue]; rfl
    | cons c rest =>
      obtain rfl := hhead c rfl
      rw [parseFrom_unmatchedClose]
      rfl

/-- A text is read just if it is derived, and then the pattern of the derivation is
built, in one pass and by descent. So all derivations of a text denote one pattern. -/
theorem parse_eq_ok_iff_derives (text : String) :
    descend text = parse text ∧
      (∀ p, parse text = .ok p ↔ Derives .choice text.toList p) ∧
        ∀ p q, Derives .choice text.toList p → Derives .choice text.toList q → p = q := by
  refine ⟨descend_eq_parse text, fun p => ⟨derives_of_parse, parse_of_derives⟩, ?_⟩
  intro p q hp hq
  have hread : Except.ok p = Except.ok q := (parse_of_derives hp).symm.trans (parse_of_derives hq)
  cases hread
  rfl

end Acceptor.Pattern
