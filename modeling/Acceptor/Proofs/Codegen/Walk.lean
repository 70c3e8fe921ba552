import Mathlib.Data.List.Basic
import Acceptor.Pattern.Matcher
import Acceptor.Proofs.Codegen.Spelling
import Acceptor.Proofs.Dfa.Functional
import Acceptor.Proofs.Nfa.Recognized
import Acceptor.Proofs.Recognizer

/-!
# The program and the matcher walk together

When the source of a listing runs, its value takes the same walk as the matcher of the same
table: they stand in the same state, or both have left the table, and they answer alike
(`answers_like_matcher`). The mark is looked at first in each function. Otherwise the
listing has an arm for every state of the table in each of its three `match` expressions,
and no step leads out of these states, so the arm that must never be run is not reached
(`Agrees`).
-/

namespace Acceptor.Codegen

open Recognizer

/-- The arms of the symbols lead where the automaton does, since the first arm for a
symbol is that of the first rule. -/
theorem lookup_transitions (t : Table Char) (q : Nat) (a : Char) :
    (t.transitions q).lookup a = (t.automaton.step q a).toOption := by
  have hrule : (t.transitions q).lookup a = (t.automaton.ruleFor? q a).map Rule.target := by
    rw [Table.transitions, Diagram.rulesFrom, Dfa.ruleFor?]
    induction t.automaton.rules with
    | nil => rfl
    | cons rule rules ih =>
      by_cases hsource : rule.source = q
      · cases hlabel : rule.label with
        | none => simpa [hsource, hlabel] using ih
        | some b =>
          by_cases hsymbol : a = b
          · simp [hsource, hlabel, hsymbol]
          · have hother : ¬ b = a := fun heq => hsymbol heq.symm
            have hdiffer : (a == b) = false := beq_false_of_ne hsymbol
            simpa [hsource, hlabel, hother, hdiffer, List.lookup_cons] using ih
      · simpa [hsource] using ih
  rw [hrule, Dfa.step]
  cases t.automaton.ruleFor? q a with
  | none => rfl
  | some rule => rfl

/-! ## Running the functions of a listing -/

/-- Of arms for different values the first one runs whose value is that of the scrutinee, and
where there is none, what stands behind them. -/
theorem runArms?_append {κ ρ : Type} [DecidableEq κ] {value : κ → Value}
    (hvalue : Function.Injective value) (body : ρ → Code) (arguments : List (String × Value))
    (fields : Fields) (key : κ) (entries : List (κ × ρ)) (others : List (Option Value × Code)) :
    runArms? arguments (value key) fields (entries.map (Listing.arm value body) ++ others) =
      match entries.lookup key with
      | some x => (body x).run? arguments fields
      | none => runArms? arguments (value key) fields others := by
  induction entries with
  | nil => rfl
  | cons entry entries ih =>
    obtain ⟨k, x⟩ := entry
    rw [List.map_cons, List.cons_append, Listing.arm, runArms?, List.lookup_cons]
    by_cases hkey : key = k
    · simp [hkey]
    · have hne : value key ≠ value k := fun h => hkey (hvalue h)
      have hdiffer : (key == k) = false := beq_false_of_ne hkey
      simpa [hne, hdiffer] using ih

namespace Listing

/-- The fields of a matcher that stands in a state. -/
def fieldsAt (q : Nat) (stuck : Bool) : Fields := [("state", .number q), ("stuck", .bool stuck)]

variable {q r : Nat} {stuck : Bool}

@[simp] theorem lookup_state : (fieldsAt q stuck).lookup "state" = some (.number q) := rfl

@[simp] theorem lookup_stuck : (fieldsAt q stuck).lookup "stuck" = some (.bool stuck) := rfl

@[simp] theorem set?_state :
    (fieldsAt q stuck).set? "state" (.number r) = some (fieldsAt r stuck) := rfl

@[simp] theorem set?_stuck {mark : Bool} :
    (fieldsAt q stuck).set? "stuck" (.bool mark) = some (fieldsAt q mark) := rfl

variable (arguments : List (String × Value))

theorem run?_assignment {fields after : Fields} {field : String} {v : Value}
    (hset : fields.set? field v = some after) :
    (assignment field v).run? arguments fields = some (.value .unit after) := by
  simp [assignment, Code.run?, Operand.value?, hset]

/-- The mark makes a function leave at once. -/
theorem run?_bodyCode_stuck (ifStuck : Value) (arms : List (Option Value × Code)) :
    (bodyCode ifStuck arms).run? arguments (fieldsAt q true) =
      some (.left ifStuck (fieldsAt q true)) := by
  simp [bodyCode, Code.run?, Operand.value?]

/-- Without the mark a function runs the arm of the state. -/
theorem run?_bodyCode (ifStuck : Value) {ρ : Type} (body : ρ → Code) {entries : List (Nat × ρ)}
    {x : ρ} (hx : entries.lookup q = some x) :
    (bodyCode ifStuck (entries.map (arm .number body))).run? arguments (fieldsAt q false) =
      (body x).run? arguments (fieldsAt q false) := by
  have harms := runArms?_append (fun _ _ => Value.number.inj) body arguments (fieldsAt q false) q
    entries [(none, .unreachable)]
  rw [hx] at harms
  simpa [bodyCode, Code.run?, Operand.value?] using harms

variable {l : Listing}

/-- The answer to a question is fixed if the mark is set, and is that for the state
otherwise. -/
theorem ask?_bodyCode (answerIfStuck : Bool) {entries : List (Nat × Bool)} {answer : Bool}
    (hanswer : entries.lookup q = some answer) :
    Program.ask? (bodyCode (.bool answerIfStuck) (entries.map (arm .number answerCode)))
        (fieldsAt q stuck) =
      some (if stuck then answerIfStuck else answer) := by
  cases stuck with
  | true => simp [Program.ask?, run?_bodyCode_stuck, Outcome.result]
  | false =>
    have hrun := run?_bodyCode [] (.bool answerIfStuck) answerCode hanswer
    simp [Program.ask?, hrun, answerCode, Code.run?, Operand.value?, Outcome.result]

/-- Reading a symbol runs the first arm for it among those of the state. -/
theorem accept?_of_lookup {moves : List (Char × Nat)} (hmoves : l.moves.lookup q = some moves)
    (a : Char) :
    l.program.accept? (fieldsAt q false) a =
      match moves.lookup a with
      | some r => some (fieldsAt r false)
      | none => some (fieldsAt q true) := by
  have hrun := run?_bodyCode [("token", .char a)] .unit movesCode hmoves
  have harms := runArms?_append (fun _ _ => Value.char.inj) moveCode [("token", .char a)]
    (fieldsAt q false) a moves [(none, assignment "stuck" (.bool true))]
  have hselect : (movesCode moves).run? [("token", .char a)] (fieldsAt q false) =
      runArms? [("token", .char a)] (.char a) (fieldsAt q false)
        (moves.map (arm .char moveCode) ++ [(none, assignment "stuck" (.bool true))]) := by
    simp [movesCode, Code.run?, Operand.value?]
  rw [Program.accept?, program, hrun, hselect, harms]
  cases moves.lookup a with
  | some r => simp [moveCode, run?_assignment _ set?_state, Outcome.result]
  | none => simp [runArms?, run?_assignment _ set?_stuck, Outcome.result]

theorem accept?_of_stuck (a : Char) :
    l.program.accept? (fieldsAt q true) a = some (fieldsAt q true) := by
  simp [Program.accept?, program, run?_bodyCode_stuck, Outcome.result]

end Listing

namespace Program

def perform? (program : Program) (fields : Fields) : Call Char → Option Fields
  | .accept a => program.accept? fields a
  | .acceptMany word => program.acceptMany? fields word
  | .accepts word => (program.accepts? fields word).map Prod.snd

/-- The matcher after calls, one after the other. -/
def performAll? (program : Program) (fields : Fields) (calls : List (Call Char)) :
    Option Fields :=
  calls.foldlM program.perform? fields

/-- The program is that of the listing of the table of the matcher, and the fields show where
the matcher stands, which is a state of the table. -/
structure Agrees (program : Program) (fields : Fields) (m : Matcher Char) : Prop where
  listing : ∃ visibility name errors,
    program = (Listing.ofTable m.table visibility name errors).program
  fields : fields = Listing.fieldsAt m.state m.left
  inTable : m.state ∈ m.table.states

theorem agrees_start (t : Table Char) (visibility : List Token) (name : String)
    (errors : List String) :
    Agrees (Listing.ofTable t visibility name errors).program
      (Listing.ofTable t visibility name errors).program.initial t.matcher where
  listing := ⟨visibility, name, errors, rfl⟩
  fields := rfl
  inTable := Diagram.start_mem_states

namespace Agrees

variable {program : Program} {fields : Fields} {m : Matcher Char}

theorem isAccepting? (h : Agrees program fields m) :
    program.isAccepting? fields = some (isAccepting m) := by
  obtain ⟨⟨visibility, name, errors, rfl⟩, rfl, hstate⟩ := h
  have hanswer : (Listing.ofTable m.table visibility name errors).accepting.lookup m.state =
      some (m.table.isAccepting m.state) := List.lookup_graph _ hstate
  refine (Listing.ask?_bodyCode false hanswer).trans ?_
  cases hleft : m.left <;> simp [isAccepting, hleft]

theorem isStuck? (h : Agrees program fields m) : program.isStuck? fields = some (isStuck m) := by
  obtain ⟨⟨visibility, name, errors, rfl⟩, rfl, hstate⟩ := h
  have hanswer : (Listing.ofTable m.table visibility name errors).dead.lookup m.state =
      some (m.table.isDead m.state) := List.lookup_graph _ hstate
  refine (Listing.ask?_bodyCode true hanswer).trans ?_
  cases hleft : m.left <;> simp [isStuck, hleft]

/-- The step of the simulation. -/
theorem accept? (h : Agrees program fields m) (a : Char) :
    ∃ next, program.accept? fields a = some next ∧ Agrees program next (accept m a) := by
  obtain ⟨⟨visibility, name, errors, rfl⟩, rfl, hstate⟩ := h
  by_cases hleft : m.left = true
  · have hstay : accept m a = m := by simp [accept, hleft]
    rw [hstay, hleft]
    exact ⟨_, Listing.accept?_of_stuck a, ⟨visibility, name, errors, rfl⟩, by rw [hleft], hstate⟩
  · have hleft : m.left = false := eq_false_of_ne_true hleft
    have hmoves : (Listing.ofTable m.table visibility name errors).moves.lookup m.state =
        some (m.table.transitions m.state) := List.lookup_graph _ hstate
    have haccept := Listing.accept?_of_lookup hmoves a
    rw [lookup_transitions] at haccept
    rw [hleft]
    cases hstep : m.table.automaton.step m.state a with
    | ok q =>
      have hread : accept m a = { m with state := q } := by simp [accept, hleft, hstep]
      have hrule := Dfa.mem_rules_of_step hstep
      rw [hstep] at haccept
      rw [hread]
      exact ⟨_, haccept, ⟨visibility, name, errors, rfl⟩, by simp [hleft],
        Diagram.target_mem_states hrule⟩
    | error failure =>
      have hread : accept m a = { m with left := true } := by simp [accept, hleft, hstep]
      rw [hstep] at haccept
      rw [hread]
      exact ⟨_, haccept, ⟨visibility, name, errors, rfl⟩, rfl, hstate⟩

/-- What one step preserves is preserved by step after step. -/
theorem foldlM {β : Type} {f? : Fields → β → Option Fields}
    {f : Matcher Char → β → Matcher Char}
    (hstep : ∀ {fields m}, Agrees program fields m →
      ∀ b, ∃ next, f? fields b = some next ∧ Agrees program next (f m b))
    (h : Agrees program fields m) (items : List β) :
    ∃ next, items.foldlM f? fields = some next ∧ Agrees program next (items.foldl f m) := by
  induction items generalizing fields m with
  | nil => exact ⟨fields, rfl, h⟩
  | cons b items ih =>
    obtain ⟨middle, hmiddle, hagrees⟩ := hstep h b
    obtain ⟨next, hnext, hfinal⟩ := ih hagrees
    refine ⟨next, ?_, hfinal⟩
    rw [List.foldlM_cons, hmiddle]
    exact hnext

theorem acceptMany? (h : Agrees program fields m) (word : List Char) :
    ∃ next, program.acceptMany? fields word = some next ∧
      Agrees program next (acceptMany m word) :=
  h.foldlM accept? word

theorem accepts? (h : Agrees program fields m) (word : List Char) :
    ∃ next, program.accepts? fields word = some ((accepts m word).1, next) ∧
      Agrees program next (accepts m word).2 := by
  induction word generalizing fields m with
  | nil => exact ⟨fields, by simp [Program.accepts?, h.isAccepting?, accepts], h⟩
  | cons a word ih =>
    obtain ⟨middle, hmiddle, hagrees⟩ := h.accept? a
    rw [Program.accepts?, hmiddle, Option.bind_eq_bind, Option.bind_some, hagrees.isStuck?,
      Option.bind_eq_bind, Option.bind_some, accepts]
    by_cases hstuck : isStuck (accept m a) = true
    · simpa [hstuck] using hagrees
    · simpa [hstuck] using ih hagrees

theorem perform? (h : Agrees program fields m) (call : Call Char) :
    ∃ next, program.perform? fields call = some next ∧ Agrees program next (perform m call) := by
  cases call with
  | accept a => exact h.accept? a
  | acceptMany word => exact h.acceptMany? word
  | accepts word =>
    obtain ⟨next, hnext, hagrees⟩ := h.accepts? word
    exact ⟨next, by simp [Program.perform?, hnext], hagrees⟩

/-- The two walk together for as long as they are called. -/
theorem performAll? (h : Agrees program fields m) (calls : List (Call Char)) :
    ∃ next, program.performAll? fields calls = some next ∧
      Agrees program next (performAll m calls) :=
  h.foldlM perform? calls

end Agrees

/-- The source that is written for a pattern is read as a program with the name and the
errors that are asked for, and after any calls a value of the type that it declares answers
every question like the matcher of the pattern. In particular there is an answer: the arm
for a state that cannot occur is never taken. -/
theorem answers_like_matcher {render : String → List Token} (hrender : RendersErrors render)
    (p : Pattern Char) (visibility : Visibility) (name : String) (errors : List String) :
    ∃ program : Program,
      read? ((Listing.ofTable p.table visibility.tokens name errors).tokens render) =
        some program ∧
      program.name = name ∧ program.errors = errors ∧
      ∀ calls : List (Call Char), ∃ fields,
        program.performAll? program.initial calls = some fields ∧
          program.isAccepting? fields = some (isAccepting (performAll p.table.matcher calls)) ∧
            program.isStuck? fields = some (isStuck (performAll p.table.matcher calls)) ∧
              ∀ word, (program.accepts? fields word).map Prod.fst =
                some (accepts (performAll p.table.matcher calls) word).1 := by
  refine ⟨_, Listing.read?_tokens hrender rfl, rfl, rfl, ?_⟩
  intro calls
  have hstart := agrees_start p.table visibility.tokens name errors
  obtain ⟨fields, hfields, hagrees⟩ := hstart.performAll? calls
  refine ⟨fields, hfields, hagrees.isAccepting?, hagrees.isStuck?, ?_⟩
  intro word
  obtain ⟨next, hnext, _⟩ := hagrees.accepts? word
  simp [hnext]

/-- After the `x` the table is left in its accept state, so that only the mark tells that
nothing is accepted any more. -/
theorem answers_like_matcher_of_left :
    ∃ program : Program,
      read? ((Listing.ofTable (Pattern.star (.literal 'a')).table
        (Visibility.within ["crate"]).tokens "Machine" ["broken"]).tokens compileError) =
          some program ∧
      program.errors = ["broken"] ∧
      (∃ fields, program.performAll? program.initial [.accept 'a'] = some fields ∧
        program.isAccepting? fields = some true ∧ program.isStuck? fields = some false) ∧
      ∃ fields, program.performAll? program.initial [.accept 'a', .acceptMany ['x', 'a']] =
          some fields ∧
        program.isAccepting? fields = some false ∧ program.isStuck? fields = some true := by
  obtain ⟨program, hread, -, herrors, hcalls⟩ := answers_like_matcher rendersErrors_compileError
    (.star (.literal 'a')) (.within ["crate"]) "Machine" ["broken"]
  obtain ⟨fields, hfields, haccepting, hstuck, -⟩ := hcalls [.accept 'a']
  obtain ⟨fields', hfields', haccepting', hstuck', -⟩ := hcalls [.accept 'a', .acceptMany ['x', 'a']]
  refine ⟨program, hread, herrors, ⟨fields, hfields, haccepting.trans ?_, hstuck.trans ?_⟩,
    ⟨fields', hfields', haccepting'.trans ?_, hstuck'.trans ?_⟩⟩ <;> cbv

end Program

end Acceptor.Codegen
