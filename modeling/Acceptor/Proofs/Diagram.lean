import Acceptor.Path
import Acceptor.SortedSet.Lemmas

/-!
# States and paths of a diagram

A diagram that is glued from parts has the rules of its parts and a few more. A path
through it is cut where it goes from one part to another: as long as no rule leads out of
a set of states the path is one of the part (`Path.confined`), and if the only ways out
are free moves to one state, the path either never leaves or is cut at the first such move
(`Path.leaves`). If the states of a part get other names, its paths are the renamed ones
(`path_rename_iff`).
-/

namespace Acceptor

namespace Diagram

variable {σ α : Type} [Ordered σ] {d e : Diagram σ α}

theorem mem_states {q : σ} :
    q ∈ d.states ↔
      q = d.start ∨ q ∈ d.accept ∨ ∃ rule ∈ d.rules, q = rule.source ∨ q = rule.target := by
  simp [states, SortedSet.mem_toList]

theorem start_mem_states : d.start ∈ d.states :=
  mem_states.2 (.inl rfl)

theorem mem_states_of_mem_accept {q : σ} (hq : q ∈ d.accept) : q ∈ d.states :=
  mem_states.2 (.inr (.inl hq))

theorem ends_mem_states {rule : Rule σ α} (hrule : rule ∈ d.rules) {q : σ}
    (hend : q = rule.source ∨ q = rule.target) : q ∈ d.states :=
  mem_states.2 (.inr (.inr ⟨rule, hrule, hend⟩))

theorem source_mem_states {rule : Rule σ α} (hrule : rule ∈ d.rules) :
    rule.source ∈ d.states :=
  ends_mem_states hrule (.inl rfl)

theorem target_mem_states {rule : Rule σ α} (hrule : rule ∈ d.rules) :
    rule.target ∈ d.states :=
  ends_mem_states hrule (.inr rfl)

theorem mem_alphabet [Ordered α] {a : α} :
    a ∈ d.alphabet ↔ ∃ rule ∈ d.rules, rule.label = some a := by
  rw [alphabet, SortedSet.mem_ofList, List.mem_filterMap]

theorem Path.mono (hrules : ∀ rule ∈ d.rules, rule ∈ e.rules) {q r : σ} {w : List α}
    (path : d.Path q w r) : e.Path q w r := by
  induction path with
  | nil q => exact .nil q
  | free hrule _ ih => exact .free (hrules _ hrule) ih
  | read hrule _ ih => exact .read (hrules _ hrule) ih

theorem Path.mem_alphabet [Ordered α] {q r : σ} {w : List α} (path : d.Path q w r) :
    ∀ a ∈ w, a ∈ d.alphabet := by
  induction path with
  | nil q => simp
  | free _ _ ih => exact ih
  | @read q r s a w hrule _ ih =>
    exact List.forall_mem_cons.2 ⟨Diagram.mem_alphabet.2 ⟨_, hrule, rfl⟩, ih⟩

/-- A path that starts inside either stays there, or is cut at its first move out. All
moves out are free moves to the state `x`. -/
theorem Path.leaves (inside exits : σ → Prop) {x : σ}
    (hrules : ∀ rule ∈ d.rules, inside rule.source →
      rule ∈ e.rules ∧ inside rule.target ∨
        rule.label = none ∧ exits rule.source ∧ rule.target = x)
    {q r : σ} {w : List α} (path : d.Path q w r) (hq : inside q) :
    (e.Path q w r ∧ inside r) ∨
      ∃ u v s, w = u ++ v ∧ e.Path q u s ∧ exits s ∧ d.Path x v r := by
  induction path with
  | nil q => exact .inl ⟨.nil q, hq⟩
  | free hrule hpath ih =>
    rcases hrules _ hrule hq with ⟨hinner, htarget⟩ | ⟨_, hexit, rfl⟩
    · rcases ih htarget with ⟨hrest, hr⟩ | ⟨u, v, s, rfl, hu, hs, hv⟩
      · exact .inl ⟨.free hinner hrest, hr⟩
      · exact .inr ⟨u, v, s, rfl, .free hinner hu, hs, hv⟩
    · exact .inr ⟨[], _, _, rfl, .nil _, hexit, hpath⟩
  | @read q r s a w hrule hpath ih =>
    rcases hrules _ hrule hq with ⟨hinner, htarget⟩ | ⟨hlabel, _, _⟩
    · rcases ih htarget with ⟨hrest, hr⟩ | ⟨u, v, s, rfl, hu, hs, hv⟩
      · exact .inl ⟨.read hinner hrest, hr⟩
      · exact .inr ⟨a :: u, v, s, rfl, .read hinner hu, hs, hv⟩
    · cases hlabel

/-- A path that starts inside stays there if no rule leads out. -/
theorem Path.confined (inside : σ → Prop)
    (hrules : ∀ rule ∈ d.rules, inside rule.source → rule ∈ e.rules ∧ inside rule.target)
    {q r : σ} {w : List α} (path : d.Path q w r) (hq : inside q) :
    e.Path q w r ∧ inside r := by
  have hcut := Path.leaves (x := q) inside (fun _ => False)
    (fun rule hrule hsource => .inl (hrules rule hrule hsource)) path hq
  rcases hcut with hstay | ⟨_, _, _, _, _, hexit, _⟩
  · exact hstay
  · exact hexit.elim

theorem Path.mem_states {q r : σ} {w : List α} (path : d.Path q w r) (hq : q ∈ d.states) :
    r ∈ d.states :=
  (path.confined (· ∈ d.states) (fun _ hrule _ => ⟨hrule, target_mem_states hrule⟩) hq).2

/-- Some path leads from the first state to the second one. -/
def Leads (d : Diagram σ α) (q r : σ) : Prop := ∃ w, d.Path q w r

namespace Leads

theorem refl (d : Diagram σ α) (q : σ) : d.Leads q q := ⟨[], .nil q⟩

theorem trans {q r s : σ} (h : d.Leads q r) (h' : d.Leads r s) : d.Leads q s := by
  obtain ⟨u, hu⟩ := h
  obtain ⟨v, hv⟩ := h'
  exact ⟨u ++ v, hu.append hv⟩

theorem of_rule {q r : σ} {label : Option α} (hrule : ⟨q, label, r⟩ ∈ d.rules) : d.Leads q r :=
  ⟨_, .of_rule hrule⟩

theorem mono (hrules : ∀ rule ∈ d.rules, rule ∈ e.rules) {q r : σ} (h : d.Leads q r) :
    e.Leads q r := by
  obtain ⟨w, path⟩ := h
  exact ⟨w, path.mono hrules⟩

end Leads

/-- If a diagram does with the states `f q` what another one does with the states `q` inside
of a closed part, then its paths from there are the renamed paths of the other one. -/
theorem path_rename_iff {τ : Type} [Ordered τ] {d : Diagram σ α} {e : Diagram τ α} {f : σ → τ}
    (inside : σ → Prop)
    (hclosed : ∀ rule ∈ d.rules, inside rule.source → inside rule.target)
    (hrules : ∀ {q : σ}, inside q → ∀ {label : Option α} {r' : τ},
      ⟨f q, label, r'⟩ ∈ e.rules ↔ ∃ r, ⟨q, label, r⟩ ∈ d.rules ∧ f r = r')
    {q : σ} (hq : inside q) {w : List α} {r' : τ} :
    e.Path (f q) w r' ↔ ∃ r, d.Path q w r ∧ f r = r' := by
  constructor
  -- Induction on the path of `e`: only its start is known to be a renamed state.
  · generalize hq' : f q = q'
    intro path
    induction path generalizing q with
    | nil => exact ⟨q, .nil q, hq'⟩
    | free hrule _ ih =>
      subst hq'
      obtain ⟨s, hmem, hs⟩ := (hrules hq).1 hrule
      obtain ⟨r, hpath, hr⟩ := ih (hclosed _ hmem hq) hs
      exact ⟨r, .free hmem hpath, hr⟩
    | read hrule _ ih =>
      subst hq'
      obtain ⟨s, hmem, hs⟩ := (hrules hq).1 hrule
      obtain ⟨r, hpath, hr⟩ := ih (hclosed _ hmem hq) hs
      exact ⟨r, .read hmem hpath, hr⟩
  · intro himage
    obtain ⟨r, path, rfl⟩ := himage
    induction path with
    | nil q => exact .nil (f q)
    | free hmem _ ih => exact .free ((hrules hq).2 ⟨_, hmem, rfl⟩) (ih (hclosed _ hmem hq))
    | read hmem _ ih => exact .read ((hrules hq).2 ⟨_, hmem, rfl⟩) (ih (hclosed _ hmem hq))

end Diagram

end Acceptor
