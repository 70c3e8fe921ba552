import Acceptor.Proofs.Pattern.Trim

/-!
# Fresh states and distinct rules

The states of an assembled automaton are all the vertices of its block, not only some of them
(`mem_states_assemble_iff`). No rule enters its start state (`target_ne_start_assemble`), which
keeps the rules that a repetition adds apart from those that are there already, and so no rule
stands there twice (`nodup_rules_assemble`). All of this is an induction over the pattern with
one lemma for each way of gluing.
-/

namespace Acceptor

theorem Vertex.eq_mk_iff {v : Vertex} {i : Nat} : v = ⟨i⟩ ↔ v.index = i :=
  ⟨congrArg index, index_injective v ⟨i⟩⟩

/-- The states of a part are states of the whole, if those are that no rule of the part needs to
mention. -/
theorem Diagram.mem_states_of_part {σ α : Type} [Ordered σ] {part whole : Diagram σ α}
    (hrules : ∀ rule ∈ part.rules, rule ∈ whole.rules) (hstart : part.start ∈ whole.states)
    (haccept : ∀ r ∈ part.accept, r ∈ whole.states) {q : σ} (hq : q ∈ part.states) :
    q ∈ whole.states := by
  rcases Diagram.mem_states.1 hq with rfl | hq | ⟨rule, hrule, hend⟩
  · exact hstart
  · exact haccept q hq
  · exact Diagram.ends_mem_states (hrules rule hrule) hend

namespace Nfa

variable {α : Type} {start : Vertex} {first second part : Nfa Vertex α}

section states

theorem mem_states_ofEmpty_iff {q : Vertex} :
    q ∈ (ofEmpty (α := α) start).states ↔ q = start := by
  refine ⟨mem_states_ofEmpty, ?_⟩
  rintro rfl
  exact Diagram.start_mem_states

theorem mem_states_ofLiteral_iff {stop q : Vertex} {a : α} :
    q ∈ (ofLiteral start stop a).states ↔ q = start ∨ q = stop := by
  refine ⟨mem_states_ofLiteral, ?_⟩
  rintro (rfl | rfl)
  · exact Diagram.start_mem_states
  · exact Diagram.mem_states_of_mem_accept (SortedSet.mem_singleton.2 rfl)

theorem mem_states_concat_iff (hfirst : ∃ r, r ∈ first.accept) {q : Vertex} :
    q ∈ (concat first second).states ↔ q ∈ first.states ∨ q ∈ second.states := by
  refine ⟨mem_states_concat, fun h => ?_⟩
  have hexit : ∀ r ∈ first.accept, Rule.free r second.start ∈ (concat first second).rules :=
    fun r hr => mem_rules_concat.2 (.inr (.inr ⟨r, hr, rfl⟩))
  rcases h with h | h
  · exact Diagram.mem_states_of_part (fun _ hrule => mem_rules_concat.2 (.inl hrule))
      Diagram.start_mem_states (fun r hr => Diagram.source_mem_states (hexit r hr)) h
  · obtain ⟨r, hr⟩ := hfirst
    exact Diagram.mem_states_of_part (fun _ hrule => mem_rules_concat.2 (.inr (.inl hrule)))
      (Diagram.target_mem_states (hexit r hr)) (fun _ hs => Diagram.mem_states_of_mem_accept hs) h

theorem mem_states_choice_iff {q : Vertex} :
    q ∈ (choice start first second).states ↔
      q = start ∨ q ∈ first.states ∨ q ∈ second.states := by
  refine ⟨mem_states_choice, fun h => ?_⟩
  rcases h with rfl | h | h
  · exact Diagram.start_mem_states
  · have hentry : Rule.free start first.start ∈ (choice start first second).rules :=
      mem_rules_choice.2 (.inr (.inr (.inl rfl)))
    exact Diagram.mem_states_of_part (fun _ hrule => mem_rules_choice.2 (.inl hrule))
      (Diagram.target_mem_states hentry)
      (fun _ hr => Diagram.mem_states_of_mem_accept (SortedSet.mem_union.2 (.inl hr))) h
  · have hentry : Rule.free start second.start ∈ (choice start first second).rules :=
      mem_rules_choice.2 (.inr (.inr (.inr rfl)))
    exact Diagram.mem_states_of_part (fun _ hrule => mem_rules_choice.2 (.inr (.inl hrule)))
      (Diagram.target_mem_states hentry)
      (fun _ hr => Diagram.mem_states_of_mem_accept (SortedSet.mem_union.2 (.inr hr))) h

theorem mem_states_star_iff {q : Vertex} :
    q ∈ (star start part).states ↔ q = start ∨ q ∈ part.states := by
  refine ⟨mem_states_star, fun h => ?_⟩
  rcases h with rfl | h
  · exact Diagram.start_mem_states
  · have hentry : Rule.free start part.start ∈ (star start part).rules :=
      mem_rules_star.2 (.inr (.inr rfl))
    exact Diagram.mem_states_of_part (fun _ hrule => mem_rules_star.2 (.inl hrule))
      (Diagram.target_mem_states hentry)
      (fun _ hr => Diagram.mem_states_of_mem_accept (SortedSet.mem_insert.2 (.inr hr))) h

end states

section start

theorem target_ne_start_concat (hfirst : ∀ rule ∈ first.rules, rule.target ≠ first.start)
    (hdisjoint : ∀ v ∈ first.states, v ∉ second.states) :
    ∀ rule ∈ (concat first second).rules, rule.target ≠ (concat first second).start := by
  have houtside : ∀ v ∈ second.states, v ≠ first.start := by
    rintro v hv rfl
    exact hdisjoint _ Diagram.start_mem_states hv
  intro rule hrule
  rcases mem_rules_concat.1 hrule with hrule | hrule | ⟨_, _, rfl⟩
  · exact hfirst rule hrule
  · exact houtside _ (Diagram.target_mem_states hrule)
  · exact houtside _ Diagram.start_mem_states

theorem target_ne_start_choice (hfirst : start ∉ first.states) (hsecond : start ∉ second.states) :
    ∀ rule ∈ (choice start first second).rules, rule.target ≠ start := by
  intro rule hrule
  rcases mem_rules_choice.1 hrule with hrule | hrule | rfl | rfl
  · exact ne_of_mem_of_not_mem (Diagram.target_mem_states hrule) hfirst
  · exact ne_of_mem_of_not_mem (Diagram.target_mem_states hrule) hsecond
  · exact ne_of_mem_of_not_mem Diagram.start_mem_states hfirst
  · exact ne_of_mem_of_not_mem Diagram.start_mem_states hsecond

theorem target_ne_start_star (hpart : start ∉ part.states) :
    ∀ rule ∈ (star start part).rules, rule.target ≠ start := by
  intro rule hrule
  rcases mem_rules_star.1 hrule with hrule | ⟨_, _, rfl⟩ | rfl
  · exact ne_of_mem_of_not_mem (Diagram.target_mem_states hrule) hpart
  · exact ne_of_mem_of_not_mem Diagram.start_mem_states hpart
  · exact ne_of_mem_of_not_mem Diagram.start_mem_states hpart

end start

section rules

theorem nodup_mergeRules {l l' : List (Rule Vertex α)} (hl : l.Nodup) (hl' : l'.Nodup)
    (hdisjoint : l.Disjoint l') : (mergeRules l l').Nodup := by
  rw [mergeRules]
  split
  · exact hl.append hl' hdisjoint
  · exact hl'.append hl hdisjoint.symm

theorem nodup_exits (m : Nfa Vertex α) (target : Vertex) : (m.exits target).Nodup := by
  refine m.accept.nodup_toList.map fun q r h => ?_
  exact congrArg Rule.source h

theorem disjoint_rules (hdisjoint : ∀ v ∈ first.states, v ∉ second.states) :
    first.rules.Disjoint second.rules :=
  fun _ hrule hrule' =>
    hdisjoint _ (Diagram.source_mem_states hrule) (Diagram.source_mem_states hrule')

theorem nodup_rules_concat (hfirst : first.rules.Nodup) (hsecond : second.rules.Nodup)
    (hdisjoint : ∀ v ∈ first.states, v ∉ second.states) :
    (concat first second).rules.Nodup := by
  refine (nodup_mergeRules hfirst hsecond (disjoint_rules hdisjoint)).append
    (first.nodup_exits second.start) fun rule hrule hexit => ?_
  obtain ⟨q, hq, rfl⟩ := mem_exits.1 hexit
  -- an exit leads from the first automaton to the second one, so it is in neither
  rcases mem_mergeRules.1 hrule with hrule | hrule
  · exact hdisjoint _ (Diagram.target_mem_states hrule) Diagram.start_mem_states
  · exact hdisjoint q (Diagram.mem_states_of_mem_accept hq) (Diagram.source_mem_states hrule)

theorem nodup_rules_choice (hfirst : first.rules.Nodup) (hsecond : second.rules.Nodup)
    (hdisjoint : ∀ v ∈ first.states, v ∉ second.states) (hstart : start ∉ first.states)
    (hstart' : start ∉ second.states) : (choice start first second).rules.Nodup := by
  have hne : first.start ≠ second.start := by
    intro h
    exact hdisjoint _ Diagram.start_mem_states (h ▸ Diagram.start_mem_states)
  have hentries :
      ([.free start first.start, .free start second.start] : List (Rule Vertex α)).Nodup := by
    simpa [Rule.free] using hne
  refine (nodup_mergeRules hfirst hsecond (disjoint_rules hdisjoint)).append hentries
    fun rule hrule hentry => ?_
  have hsource : rule.source = start := by
    rcases List.mem_pair.1 hentry with rfl | rfl <;> rfl
  rcases mem_mergeRules.1 hrule with hrule | hrule
  · exact hstart (hsource ▸ Diagram.source_mem_states hrule)
  · exact hstart' (hsource ▸ Diagram.source_mem_states hrule)

theorem nodup_rules_star (hpart : part.rules.Nodup)
    (hentered : ∀ rule ∈ part.rules, rule.target ≠ part.start) (hstart : start ∉ part.states) :
    (star start part).rules.Nodup := by
  have hback : (part.rules ++ part.exits part.start).Nodup := by
    refine hpart.append (part.nodup_exits part.start) fun rule hrule hexit => ?_
    obtain ⟨q, _, rfl⟩ := mem_exits.1 hexit
    exact hentered _ hrule rfl
  refine hback.append (List.nodup_singleton _) fun rule hrule hentry => ?_
  rw [List.mem_singleton] at hentry
  subst hentry
  rcases List.mem_append.1 hrule with hrule | hexit
  · exact hstart (Diagram.source_mem_states hrule)
  · obtain ⟨q, hq, hfree⟩ := mem_exits.1 hexit
    obtain rfl : start = q := congrArg Rule.source hfree
    exact hstart (Diagram.mem_states_of_mem_accept hq)

end rules

end Nfa

namespace Pattern

variable {α : Type}

theorem exists_mem_accept_assemble (p : Pattern α) (supply : Supply) :
    ∃ r, r ∈ (p.assemble supply).1.accept := by
  obtain ⟨_, r, hr, _⟩ := p.trim_assemble supply _ Diagram.start_mem_states
  exact ⟨r, hr⟩

/-- The states of an assembled automaton are the vertices that were taken from the supply for
it, all of them. -/
theorem mem_states_assemble_iff (p : Pattern α) (supply : Supply) {v : Vertex} :
    v ∈ (p.assemble supply).1.states ↔
      supply.used ≤ v.index ∧ v.index < supply.used + p.vertexCount := by
  induction p generalizing supply with
  | empty =>
    rw [assemble, Nfa.mem_states_ofEmpty_iff, vertexCount, Supply.fresh, Vertex.eq_mk_iff]
    omega
  | literal a =>
    simp only [assemble, Nfa.mem_states_ofLiteral_iff, Supply.fresh, Vertex.eq_mk_iff, vertexCount]
    omega
  | concat p q ihp ihq =>
    rw [assemble, Nfa.mem_states_concat_iff (p.exists_mem_accept_assemble supply), ihp, ihq,
      used_assemble, vertexCount]
    omega
  | choice p q ihp ihq =>
    rw [assemble, Nfa.mem_states_choice_iff, ihp, ihq, Supply.fresh, Vertex.eq_mk_iff,
      used_assemble, used_assemble, vertexCount]
    omega
  | star p ih =>
    rw [assemble, Nfa.mem_states_star_iff, ih, Supply.fresh, Vertex.eq_mk_iff, used_assemble,
      vertexCount]
    omega

/-- No rule of an assembled automaton enters its start state. -/
theorem target_ne_start_assemble (p : Pattern α) (supply : Supply) :
    ∀ rule ∈ (p.assemble supply).1.rules, rule.target ≠ (p.assemble supply).1.start := by
  induction p generalizing supply with
  | empty => exact fun _ hrule => absurd hrule List.not_mem_nil
  | literal a =>
    intro rule hrule
    obtain rfl := List.mem_singleton.1 hrule
    exact fun h => Nat.succ_ne_self supply.used (congrArg Vertex.index h)
  | concat p q ihp ihq =>
    exact Nfa.target_ne_start_concat (ihp supply) (not_mem_states_assemble p q supply)
  | choice p q ihp ihq =>
    refine Nfa.target_ne_start_choice (p.fresh_not_mem_states_assemble ?_)
      (q.fresh_not_mem_states_assemble le_rfl)
    rw [used_assemble q]
    exact Nat.le_add_right _ _
  | star p ih => exact Nfa.target_ne_start_star (p.fresh_not_mem_states_assemble le_rfl)

/-- No rule of an assembled automaton is there twice. -/
theorem nodup_rules_assemble (p : Pattern α) (supply : Supply) :
    (p.assemble supply).1.rules.Nodup := by
  induction p generalizing supply with
  | empty => exact List.nodup_nil
  | literal a => exact List.nodup_singleton _
  | concat p q ihp ihq =>
    exact Nfa.nodup_rules_concat (ihp supply) (ihq _) (not_mem_states_assemble p q supply)
  | choice p q ihp ihq =>
    refine Nfa.nodup_rules_choice (ihp supply) (ihq _) (not_mem_states_assemble p q supply)
      (p.fresh_not_mem_states_assemble ?_) (q.fresh_not_mem_states_assemble le_rfl)
    rw [used_assemble q]
    exact Nat.le_add_right _ _
  | star p ih =>
    exact Nfa.nodup_rules_star (ih supply) (p.target_ne_start_assemble supply)
      (p.fresh_not_mem_states_assemble le_rfl)

/-- The vertices of a pattern are counted by its nodes: two for a literal, none for a
concatenation and one for any other. -/
theorem vertexCount_eq (p : Pattern α) :
    p.vertexCount = p.subpatterns.countP (· matches .empty) +
      2 * p.subpatterns.countP (· matches .literal _) +
      p.subpatterns.countP (· matches .choice _ _) + p.subpatterns.countP (· matches .star _) := by
  induction p with
  | empty => rfl
  | literal a => rfl
  | concat p q ihp ihq =>
    simp only [vertexCount, ihp, ihq, subpatterns, Bool.false_eq_true, not_false_eq_true,
      List.countP_cons_of_neg, List.countP_append]
    omega
  | choice p q ihp ihq =>
    simp only [vertexCount, ihp, ihq, subpatterns, Bool.false_eq_true, not_false_eq_true,
      List.countP_cons_of_neg, List.countP_cons_of_pos, List.countP_append]
    omega
  | star p ih =>
    simp only [vertexCount, ih, subpatterns, Bool.false_eq_true, not_false_eq_true,
      List.countP_cons_of_neg, List.countP_cons_of_pos]
    omega

end Pattern

end Acceptor
