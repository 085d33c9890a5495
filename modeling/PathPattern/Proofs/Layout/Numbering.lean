import PathPattern.Pattern
import PathPattern.Proofs.Cut.Uniform

namespace PathPattern

theorem numberedKey_injective : Function.Injective numberedKey := by
  intro first second same
  have digits := (List.cons.inj same).2
  calc
    first = Nat.ofDigitChars 10 (Nat.toDigits 10 first) 0 := Nat.ofDigitChars_ten_toDigits.symm
    _ = Nat.ofDigitChars 10 (Nat.toDigits 10 second) 0 := by rw [digits]
    _ = second := Nat.ofDigitChars_ten_toDigits

namespace Segment

variable {mustAgree flag : Bool} {taken : Nat} {key : Text} {reading : Reading}

theorem ofReading_eq_wildcard_iff :
    ofReading mustAgree taken reading = .wildcard key ↔
      reading = .wildcard ∧ numberedKey taken = key := by
  cases reading <;> simp [ofReading]

theorem ofReading_eq_parameter_iff :
    ofReading mustAgree taken reading = .parameter key flag ↔
      mustAgree = flag ∧
        (reading = .parameter key ∨ reading = .anonymous ∧ numberedKey taken = key) := by
  cases reading <;> simp [ofReading, and_comm]

end Segment

namespace Layout

variable {mustAgree : Bool} {taken : Nat} {readings : List Reading}

theorem getElem?_segmentsFrom (mustAgree : Bool) (taken : Nat) (readings : List Reading)
    (place : Nat) :
    (segmentsFrom mustAgree taken readings)[place]? =
      readings[place]?.map (.ofReading mustAgree (takenAfter taken (readings.take place))) := by
  induction readings generalizing taken place with
  | nil => rfl
  | cons reading rest ih =>
      cases place with
      | zero => rfl
      | succ place => exact ih _ place

/-- All parameters of a layout must agree, or none. -/
theorem mustAgree_of_mem {key : Text} {flag : Bool}
    (member : .parameter key flag ∈ segmentsFrom mustAgree taken readings) : flag = mustAgree := by
  obtain ⟨place, here⟩ := List.getElem?_of_mem member
  rw [getElem?_segmentsFrom, Option.map_eq_some_iff] at here
  obtain ⟨reading, _, same⟩ := here
  exact (Segment.ofReading_eq_parameter_iff.1 same).1.symm

theorem parse_eq_ok_iff {settings : Settings} {text : Text} {layout : Layout} :
    parse settings text = .ok layout ↔
      (text.pieces settings.separator).mapM (Reading.ofPiece settings) = .ok layout.readings ∧
        layout.mustAgree = settings.agreement := by
  obtain ⟨readings, mustAgree⟩ := layout
  rw [parse]
  cases (text.pieces settings.separator).mapM (Reading.ofPiece settings) with
  | error fault => simp [Except.map]
  | ok found => simp [Except.map, eq_comm]

theorem mustAgree_of_parse {settings : Settings} {text : Text} {layout : Layout}
    (parsed : parse settings text = .ok layout) : layout.mustAgree = settings.agreement :=
  (parse_eq_ok_iff.1 parsed).2

end Layout

end PathPattern
