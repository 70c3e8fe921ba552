import Mathlib.Data.List.Basic
import Acceptor.Drawing.Look
import Acceptor.Proofs.Drawing.Reading
import Acceptor.SortedSet.Lemmas

/-!
# What the states look like

The statement about a state always sets the label that new nodes have by default, but it
sets the shape only if the state is accepting. So the shape of a state is the one that was
set last: a double circle from the first accept state on, in the order of the states, and
the shape of the entry point before it (`look?_drawing`). The picture is the one that the
text of the drawing describes, so its labels must be fit to be read back.
-/

namespace Acceptor

namespace Drawing

/-- Statements that do not name the node only change the defaults for it. -/
theorem lookFrom?_append {node : Node} {above : List Statement}
    (h : ∀ statement ∈ above, node ∉ statement.nodes) (defaults : Look)
    (rest : List Statement) :
    lookFrom? node defaults (above ++ rest) =
      lookFrom? node (above.foldl Look.after defaults) rest := by
  induction above generalizing defaults with
  | nil => rfl
  | cons statement above ih =>
    obtain ⟨hfirst, habove⟩ := List.forall_mem_cons.1 h
    rw [List.cons_append, lookFrom?, if_neg hfirst, ih habove, List.foldl_cons]

theorem lookFrom?_of_mem {node : Node} {statement : Statement} (h : node ∈ statement.nodes)
    (defaults : Look) (rest : List Statement) :
    lookFrom? node defaults (statement :: rest) = some (defaults.after statement) :=
  if_pos h

end Drawing

namespace Diagram

open Drawing

section Order

variable {σ α : Type} [Ordered σ] {d : Diagram σ α}

/-- The states above `q` are those before it. -/
theorem mem_above_iff {above below : List σ} {q r : σ}
    (hsplit : d.states.toList = above ++ q :: below) :
    r ∈ above ↔ r ∈ d.states ∧ compare r q = .lt := by
  have hsorted := d.states.sorted
  rw [hsplit] at hsorted
  obtain ⟨-, hlast, habove⟩ := List.pairwise_append.1 hsorted
  obtain ⟨hbelow, -⟩ := List.pairwise_cons.1 hlast
  rw [← SortedSet.mem_toList, hsplit]
  constructor
  · exact fun hr => ⟨List.mem_append_left _ hr, habove r hr q List.mem_cons_self⟩
  · rintro ⟨hr, hlt⟩
    rcases List.mem_append.1 hr with hr | hr
    · exact hr
    · rcases List.mem_cons.1 hr with rfl | hr
      · simp at hlt
      · exact absurd hlt (Std.OrientedCmp.not_lt_of_lt (hbelow r hr))

/-- Some accept state is not behind `q` just if `q` or a state above it is accepting. -/
theorem exists_accept_isLE_iff {above below : List σ} {q : σ}
    (hsplit : d.states.toList = above ++ q :: below) :
    (∃ r ∈ d.accept, (compare r q).isLE) ↔ q ∈ d.accept ∨ ∃ r ∈ above, r ∈ d.accept := by
  constructor
  · rintro ⟨r, haccept, hle⟩
    cases hcompare : compare r q with
    | lt =>
      have hr := (mem_above_iff hsplit).2 ⟨mem_states_of_mem_accept haccept, hcompare⟩
      exact .inr ⟨r, hr, haccept⟩
    | eq => exact .inl (Std.LawfulEqOrd.eq_of_compare hcompare ▸ haccept)
    | gt => simp [hcompare] at hle
  · rintro (haccept | ⟨r, hr, haccept⟩)
    · exact ⟨q, haccept, by simp⟩
    · exact ⟨r, haccept, by simp [((mem_above_iff hsplit).1 hr).2]⟩

theorem nodeOf_ne {q r : σ} (hq : q ∈ d.states) (hne : q ≠ r) : d.nodeOf q ≠ d.nodeOf r := by
  intro heq
  exact hne ((List.idxOf_inj hq).1 (Drawing.Node.state.inj heq))

end Order

variable {σ α : Type} [Ordered σ] [Quoted σ] {d : Diagram σ α}

/-- A state sets the label, and the shape only if it is accepting. -/
theorem after_stateStatement (node : σ → Drawing.Node) (q : σ) (look : Look) :
    look.after (d.stateStatement node q) =
      ⟨some (quoted q), if q ∈ d.accept then some "doublecircle" else look.shape⟩ := by
  by_cases haccept : q ∈ d.accept <;> simp [stateStatement, Look.after, Look.set, haccept]

/-- After several states the shape is a double circle if one of them is accepting. -/
theorem shape_after_stateStatements (node : σ → Drawing.Node) (order : List σ) (look : Look) :
    ((order.map (d.stateStatement node)).foldl Look.after look).shape =
      if ∃ q ∈ order, q ∈ d.accept then some "doublecircle" else look.shape := by
  induction order generalizing look with
  | nil => simp
  | cons q order ih =>
    rw [List.map_cons, List.foldl_cons, ih, after_stateStatement]
    by_cases haccept : q ∈ d.accept
    · simp [haccept]
    · simp [haccept]

variable [Quoted α]

theorem drawing_eq (d : Diagram σ α) :
    d.drawing = .node [.shape "point"] .entry :: d.states.toList.map (d.stateStatement d.nodeOf) ++
      .arrow .entry (d.nodeOf d.start) none :: d.rules.map (ruleStatement d.nodeOf) := rfl

/-- The shape of a state is the one that was set last: that of the accept states from the
first of them on, and that of the entry point before it. -/
theorem look?_drawing {q : σ} (hq : q ∈ d.states) :
    Drawing.look? d.drawing (d.nodeOf q) =
      some ⟨some (quoted q),
        some (if ∃ r ∈ d.accept, (compare r q).isLE then "doublecircle" else "point")⟩ := by
  obtain ⟨above, below, hsplit⟩ := List.append_of_mem hq
  let entry : Statement := .node [.shape "point"] .entry
  have hstates : d.states.toList.map (d.stateStatement d.nodeOf) =
      above.map (d.stateStatement d.nodeOf) ++
        d.stateStatement d.nodeOf q :: below.map (d.stateStatement d.nodeOf) := by
    rw [hsplit, List.map_append, List.map_cons]
  obtain ⟨others, hdrawing⟩ : ∃ others, d.drawing =
      (entry :: above.map (d.stateStatement d.nodeOf)) ++
        d.stateStatement d.nodeOf q :: others := by
    rw [drawing_eq, hstates]
    exact ⟨_, by rw [List.cons_append, List.cons_append, List.append_assoc, List.cons_append]⟩
  have hfresh : ∀ statement ∈ entry :: above.map (d.stateStatement d.nodeOf),
      d.nodeOf q ∉ statement.nodes := by
    have hnodup := d.states.nodup_toList
    rw [hsplit] at hnodup
    refine List.forall_mem_cons.2 ⟨by simp [entry, Statement.nodes, nodeOf], ?_⟩
    intro statement hstatement
    obtain ⟨r, hr, rfl⟩ := List.mem_map.1 hstatement
    have hne : q ≠ r := fun heq =>
      (List.nodup_append.1 hnodup).2.2 r hr q List.mem_cons_self heq.symm
    simpa [stateStatement, Statement.nodes] using nodeOf_ne hq hne
  have hnamed : d.nodeOf q ∈ (d.stateStatement d.nodeOf q).nodes := by
    simp [stateStatement, Statement.nodes]
  rw [hdrawing, Drawing.look?, lookFrom?_append hfresh, lookFrom?_of_mem hnamed,
    after_stateStatement, List.foldl_cons, shape_after_stateStatements]
  have hentry : (Look.after {} entry).shape = some "point" := rfl
  by_cases haccept : q ∈ d.accept
  · simp [exists_accept_isLE_iff hsplit, haccept]
  · by_cases habove : ∃ r ∈ above, r ∈ d.accept
    · simp [exists_accept_isLE_iff hsplit, habove]
    · simp [exists_accept_isLE_iff hsplit, habove, haccept, hentry]

/-- What the state looks like in the picture that the text of the drawing describes. -/
def look? (d : Diagram σ α) (q : σ) : Option Look :=
  (Drawing.read? d.graph).bind fun statements => Drawing.look? statements (d.nodeOf q)

def DrawnDouble (d : Diagram σ α) (q : σ) : Prop :=
  (d.look? q).bind Look.shape = some "doublecircle"

variable [HasStrings σ] [HasStrings α]

theorem readable_drawing {d : Diagram σ α}
    (hstates : ∀ q ∈ d.states, ∀ s ∈ strings q, '"' ∉ s.toList)
    (hsymbols : ∀ rule ∈ d.rules, ∀ a ∈ rule.label, ∀ s ∈ strings a, '"' ∉ s.toList) :
    ∀ statement ∈ d.drawing, statement.Readable := by
  have hpoint : IsName "point" := ⟨by decide, by decide⟩
  have hdouble : IsName "doublecircle" := ⟨by decide, by decide⟩
  intro statement hstatement
  rw [drawing_eq, List.mem_append, List.mem_cons, List.mem_cons, List.mem_map, List.mem_map]
    at hstatement
  rcases hstatement with (rfl | ⟨q, hq, rfl⟩) | (rfl | ⟨rule, hrule, rfl⟩)
  · simpa [Statement.Readable, Attribute.Readable] using hpoint
  · have hlabel := (pairsOff_quoted q).2.2 (hstates q hq)
    by_cases haccept : q ∈ d.accept
    · simpa [stateStatement, Statement.Readable, Attribute.Readable, haccept] using
        ⟨hlabel, hdouble⟩
    · simpa [stateStatement, Statement.Readable, Attribute.Readable, haccept] using hlabel
  · simp [Statement.Readable]
  · have hlabel := (pairsOff_labelText rule.label).2.2 (hsymbols rule hrule)
    simpa [ruleStatement, Statement.Readable] using hlabel

theorem look?_eq {d : Diagram σ α}
    (hstates : ∀ q ∈ d.states, ∀ s ∈ strings q, '"' ∉ s.toList)
    (hsymbols : ∀ rule ∈ d.rules, ∀ a ∈ rule.label, ∀ s ∈ strings a, '"' ∉ s.toList)
    {q : σ} (hq : q ∈ d.states) :
    d.look? q = some ⟨some (quoted q),
      some (if ∃ r ∈ d.accept, (compare r q).isLE then "doublecircle" else "point")⟩ := by
  rw [look?, graph, read?_text (readable_drawing hstates hsymbols), Option.bind_some,
    look?_drawing hq]

/-- In the picture each state has its label, and it is a double circle just if it is not
before all accept states. So exactly the accept states are double circles just if all states
behind an accept state are accepting. -/
theorem drawnDouble_iff (d : Diagram σ α)
    (hstates : ∀ q ∈ d.states, ∀ s ∈ strings q, '"' ∉ s.toList)
    (hsymbols : ∀ rule ∈ d.rules, ∀ a ∈ rule.label, ∀ s ∈ strings a, '"' ∉ s.toList) :
    (∀ q ∈ d.states, ∃ look, d.look? q = some look ∧ look.label = some (quoted q) ∧
      (d.DrawnDouble q ↔ ∃ r ∈ d.accept, (compare r q).isLE)) ∧
    ((∀ q ∈ d.states, d.DrawnDouble q ↔ q ∈ d.accept) ↔
      ∀ r ∈ d.accept, ∀ q ∈ d.states, compare r q = .lt → q ∈ d.accept) := by
  have hdouble : ∀ q ∈ d.states, d.DrawnDouble q ↔ ∃ r ∈ d.accept, (compare r q).isLE := by
    intro q hq
    rw [DrawnDouble, look?_eq hstates hsymbols hq]
    by_cases hreached : ∃ r ∈ d.accept, (compare r q).isLE
    · simp [hreached]
    · simp [hreached]
  constructor
  · intro q hq
    exact ⟨_, look?_eq hstates hsymbols hq, rfl, hdouble q hq⟩
  · constructor
    · intro hexact r hr q hq hlt
      exact (hexact q hq).1 ((hdouble q hq).2 ⟨r, hr, by simp [hlt]⟩)
    · intro hclosed q hq
      rw [hdouble q hq]
      constructor
      · rintro ⟨r, hr, hle⟩
        cases hcompare : compare r q with
        | lt => exact hclosed r hr q hq hcompare
        | eq => exact Std.LawfulEqOrd.eq_of_compare hcompare ▸ hr
        | gt => simp [hcompare] at hle
      · exact fun haccept => ⟨q, haccept, by simp⟩

/-- The accept state comes last, and it alone is a double circle. -/
theorem drawnDouble_of_accept_last :
    ∃ d : Diagram StateLabel Symbol, ∀ q ∈ d.states, d.DrawnDouble q ↔ q ∈ d.accept := by
  let d : Diagram StateLabel Symbol :=
    ⟨.number 1, .ofList [.number 2], [⟨.number 1, some (.char 'a'), .number 2⟩]⟩
  have hdrawn := drawnDouble_iff d (by decide) (by decide)
  exact ⟨d, hdrawn.2.2 (by decide)⟩

/-- The accept state comes first, and the other state is a double circle as well. -/
theorem not_only_accept_drawnDouble :
    ¬ ∀ d : Diagram StateLabel Symbol, ∀ q ∈ d.states, d.DrawnDouble q ↔ q ∈ d.accept := by
  intro h
  let d : Diagram StateLabel Symbol :=
    ⟨.number 1, .ofList [.number 1], [⟨.number 1, some (.char 'a'), .number 2⟩]⟩
  have hlook : d.look? (.number 2) = some ⟨some "2", some "doublecircle"⟩ :=
    (look?_eq (by decide) (by decide) (by decide)).trans (by decide)
  have hdouble : d.DrawnDouble (.number 2) := by rw [DrawnDouble, hlook]; rfl
  exact absurd ((h d (.number 2) (by decide)).1 hdouble) (by decide)

end Diagram

end Acceptor
