import Acceptor.Pattern.Scan
import Acceptor.Proofs.Pattern.Descent

/-!
# Faults are found by scanning

The scan keeps of the groups around the current place only where they open, and of the
current group only whether it has a last factor. Reading and scanning go on in step
(`scanFrom_map_fst`), so the fault that stops the reader is the fault that the scan
meets, and a text without one is read.
-/

namespace Acceptor.Pattern

theorem isMeta_iff_mem {c : Char} : isMeta c = true ↔ c ∈ ['(', ')', '|', '*', '\\'] := by
  simp [isMeta, or_assoc]

section Steps

variable (offset : Nat) (opened : List Nat) (repeatable : Bool) (rest : List Char)

theorem scanFrom_escape {c : Char} (hc : isMeta c = true) :
    scanFrom offset opened repeatable ('\\' :: c :: rest) =
      scanFrom (offset + 2) opened true rest := by
  rw [scanFrom, if_pos (isMeta_iff_mem.1 hc)]

theorem scanFrom_unknownEscape {c : Char} (hc : isMeta c = false) :
    scanFrom offset opened repeatable ('\\' :: c :: rest) =
      some (.unknownEscape c offset) := by
  rw [scanFrom, if_neg (mt isMeta_iff_mem.2 (ne_true_of_eq_false hc))]

theorem scanFrom_plain {c : Char} (hc : isMeta c = false) :
    scanFrom offset opened repeatable (c :: rest) = scanFrom (offset + 1) opened true rest := by
  have hmeta := isMeta_eq_false_iff.1 hc
  rw [scanFrom.eq_def]
  split <;> simp_all

end Steps

theorem star?_eq_none_iff {g : Group} : g.star? = none ↔ g.last.isSome = false := by
  simp [Group.star?]

/-- The scan meets the fault that stops the reader, from any state of the reader on. -/
theorem scanFrom_map_fst (offset : Nat) (g : Group) (outer : List (Nat × Group))
    (rest : List Char) (fault : ParseError) :
    scanFrom offset (outer.map Prod.fst) g.last.isSome rest = some fault ↔
      parseFrom offset g outer rest = .error fault := by
  induction offset, g, outer, rest using parseFrom_induction with
  | finished offset g => simp [scanFrom, parseFrom]
  | unclosed offset g opened around outer => simp [scanFrom, parseFrom]
  | dangling offset g outer => simp [scanFrom]
  | unknown offset g outer c rest hc =>
    rw [parseFrom_unknownEscape _ _ _ _ hc, scanFrom_unknownEscape _ _ _ _ hc]
    simp
  | unmatched offset g rest => simp [scanFrom]
  | nothing offset g outer rest hstar =>
    rw [parseFrom_nothingToRepeat _ _ _ hstar, scanFrom, star?_eq_none_iff.1 hstar]
    simp
  | escape offset g outer c rest hc ih =>
    rw [parseFrom_escape _ _ _ _ hc, scanFrom_escape _ _ _ _ hc]
    exact ih
  | opening offset g outer rest ih =>
    rw [parseFrom_open, scanFrom]
    exact ih
  | close offset g opened around outer rest ih =>
    rw [parseFrom_close]
    exact ih
  | bar offset g outer rest ih =>
    rw [parseFrom_bar, scanFrom]
    exact ih
  | star offset g outer rest g' hstar ih =>
    obtain ⟨p, hlast, rfl⟩ := Option.map_eq_some_iff.1 hstar
    rw [parseFrom_star _ _ _ hstar, scanFrom, hlast]
    exact ih
  | plain offset g outer c rest hc ih =>
    rw [parseFrom_plain _ _ _ _ hc, scanFrom_plain _ _ _ _ hc]
    exact ih

/-- Reading, in one pass or by descent, fails just where scanning meets a fault, with that
fault; all other texts are read. -/
theorem parse_eq_error_iff_scan (text : String) :
    descend text = parse text ∧
      (∀ fault, parse text = .error fault ↔ scan text = some fault) ∧
        ((∃ p, parse text = .ok p) ↔ scan text = none) := by
  have hfault : ∀ fault, parse text = .error fault ↔ scan text = some fault := fun fault =>
    (scanFrom_map_fst 0 {} [] text.toList fault).symm
  refine ⟨descend_eq_parse text, hfault, ?_⟩
  cases hp : parse text with
  | error fault =>
    rw [(hfault fault).1 hp]
    simp
  | ok p =>
    have hscan : scan text = none := by
      rw [Option.eq_none_iff_forall_ne_some]
      intro fault hs
      rw [(hfault fault).2 hs] at hp
      cases hp
    simp [hscan]

end Acceptor.Pattern
