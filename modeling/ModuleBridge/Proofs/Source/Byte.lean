import ModuleBridge.Source.Byte

/-!
# Facts about the classes of bytes

The classes are finite, so a fact about all bytes is checked on each of the 256.
-/

namespace ModuleBridge

theorem forall_byte {P : UInt8 → Prop} (h : ∀ n : Fin 256, P (UInt8.ofFin n)) (b : UInt8) : P b := by
  simpa using h b.toFin

theorem isBlankByte_ascii {b : UInt8} : isBlankByte b = true → b < 128 := by
  apply forall_byte _ b
  decide +kernel

theorem isLineEndByte_ascii {b : UInt8} : isLineEndByte b = true → b < 128 := by
  apply forall_byte _ b
  decide +kernel

theorem isNamePart_ascii {b : UInt8} : isNamePart b = true → b < 128 := by
  apply forall_byte _ b
  decide +kernel

theorem isDigitByte_ascii {b : UInt8} : isDigitByte b = true → b < 128 := by
  apply forall_byte _ b
  decide +kernel

theorem isQuote_ascii {b : UInt8} : isQuote b = true → b < 128 := by
  apply forall_byte _ b
  decide +kernel

theorem takeWhile_inside {p : UInt8 → Bool} {bytes : List UInt8} {i : Nat}
    (h : i < (bytes.takeWhile p).length) : ∃ b, bytes[i]? = some b ∧ p b = true := by
  induction bytes generalizing i with
  | nil => simp at h
  | cons b rest ih =>
    by_cases hb : p b
    · cases i with
      | zero => exact ⟨b, rfl, hb⟩
      | succ i =>
        obtain ⟨d, hd, hp⟩ := ih (i := i) (by simpa [hb] using h)
        exact ⟨d, by simpa using hd, hp⟩
    · simp [hb] at h

/-- Where a run of bytes of one kind stops, the text ends or a byte of another kind stands. -/
theorem takeWhile_stop (p : UInt8 → Bool) (bytes : List UInt8) :
    bytes.length = (bytes.takeWhile p).length ∨
      ∃ b, bytes[(bytes.takeWhile p).length]? = some b ∧ p b = false := by
  induction bytes with
  | nil => exact .inl rfl
  | cons b rest ih =>
    by_cases hb : p b
    · rcases ih with hend | ⟨d, hd, hp⟩
      · exact .inl (by simp [hb, ← hend])
      · exact .inr ⟨d, by simpa [hb] using hd, hp⟩
    · exact .inr ⟨b, by simp [hb], by simpa using hb⟩

theorem dropWhile_eq_drop (p : UInt8 → Bool) (bytes : List UInt8) :
    bytes.dropWhile p = bytes.drop (bytes.takeWhile p).length := by
  induction bytes with
  | nil => rfl
  | cons b rest ih => cases hb : p b <;> simp [hb, ih]

end ModuleBridge
