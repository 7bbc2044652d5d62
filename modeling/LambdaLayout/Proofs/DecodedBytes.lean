import LambdaLayout.Text.Utf8

/-!
Bytes that are a text are the bytes of that text, and of no other one. While a character is being read, the bytes read of
it are those with which it starts, whichever of the bytes that may follow come next.
-/

namespace LambdaLayout.Utf8

section Characters

variable {first second third fourth : UInt8} {number : Nat}

private theorem val_of_nat (valid : number.isValidChar) : (Char.ofNat number).val.toNat = number := by
  rw [Char.ofNat, dif_pos valid]
  rfl

private theorem byte_of_nat (same : number = first.toNat) : UInt8.ofNat number = first := by
  rw [same, UInt8.ofNat_toNat]

theorem encode_char_one (ascii : first.toNat < 0x80) :
    String.utf8EncodeChar (Char.ofNat first.toNat) = [first] := by
  rw [String.utf8EncodeChar, val_of_nat (.inl (by omega)), if_pos (by omega), UInt8.ofNat_toNat]

theorem encode_char_two (is : number = (first.toNat - 0xC0) * 64 + (second.toNat - 0x80))
    (lead : 0xC2 ≤ first.toNat ∧ first.toNat ≤ 0xDF)
    (next : 0x80 ≤ second.toNat ∧ second.toNat ≤ 0xBF) :
    String.utf8EncodeChar (Char.ofNat number) = [first, second] := by
  rw [String.utf8EncodeChar, val_of_nat (.inl (by omega)), if_neg (by omega), if_pos (by omega)]
  simp only [List.cons.injEq, and_true]
  exact ⟨byte_of_nat (by omega), byte_of_nat (by omega)⟩

theorem encode_char_three
    (is : number = ((first.toNat - 0xE0) * 64 + (second.toNat - 0x80)) * 64 + (third.toNat - 0x80))
    (lead : 0xE0 ≤ first.toNat ∧ first.toNat ≤ 0xEF)
    (next : 0x80 ≤ second.toNat ∧ second.toNat ≤ 0xBF)
    (last : 0x80 ≤ third.toNat ∧ third.toNat ≤ 0xBF)
    (long : 0x7FF < number) (valid : number.isValidChar) :
    String.utf8EncodeChar (Char.ofNat number) = [first, second, third] := by
  rw [String.utf8EncodeChar, val_of_nat valid, if_neg (by omega), if_neg (by omega),
    if_pos (by omega)]
  simp only [List.cons.injEq, and_true]
  exact ⟨byte_of_nat (by omega), byte_of_nat (by omega), byte_of_nat (by omega)⟩

theorem encode_char_four
    (is : number = (((first.toNat - 0xF0) * 64 + (second.toNat - 0x80)) * 64 +
      (third.toNat - 0x80)) * 64 + (fourth.toNat - 0x80))
    (lead : 0xF0 ≤ first.toNat ∧ first.toNat ≤ 0xF4)
    (next : 0x80 ≤ second.toNat ∧ second.toNat ≤ 0xBF)
    (later : 0x80 ≤ third.toNat ∧ third.toNat ≤ 0xBF)
    (last : 0x80 ≤ fourth.toNat ∧ fourth.toNat ≤ 0xBF)
    (long : 0xFFFF < number) (least : number < 0x110000) :
    String.utf8EncodeChar (Char.ofNat number) = [first, second, third, fourth] := by
  rw [String.utf8EncodeChar, val_of_nat (.inr ⟨by omega, least⟩), if_neg (by omega),
    if_neg (by omega), if_neg (by omega)]
  simp only [List.cons.injEq, and_true]
  exact ⟨byte_of_nat (by omega), byte_of_nat (by omega), byte_of_nat (by omega),
    byte_of_nat (by omega)⟩

end Characters

/-- Whichever bytes of the ranges follow those read before, together they are the bytes of the
character with the number that they add up to. -/
def Completes (before : Bytes) (value : Nat) : List (Nat × Nat) → Prop
  | [] => String.utf8EncodeChar (Char.ofNat value) = before
  | range :: later => ∀ byte : UInt8, range.1 ≤ byte.toNat → byte.toNat ≤ range.2 →
    Completes (before ++ [byte]) (value * 64 + (byte.toNat - 0x80)) later

section Leads

variable {byte : UInt8} {low high : Nat}

private theorem completes_two (lead : 0xC2 ≤ byte.toNat ∧ byte.toNat ≤ 0xDF) :
    Completes [byte] (leadValue byte.toNat) [continuation] := by
  rw [leadValue, if_pos (by omega)]
  exact fun second least most => encode_char_two rfl lead ⟨least, most⟩

/-- The second of three bytes keeps the number large enough and out of the surrogates. -/
private theorem completes_three (lead : 0xE0 ≤ byte.toNat ∧ byte.toNat ≤ 0xEF)
    (range : 0x80 ≤ low ∧ high ≤ 0xBF) (long : byte.toNat = 0xE0 → 0xA0 ≤ low)
    (valid : byte.toNat = 0xED → high ≤ 0x9F) :
    Completes [byte] (leadValue byte.toNat) [(low, high), continuation] := by
  rw [leadValue, if_neg (by omega), if_pos (by omega)]
  intro second least most third low_third high_third
  simp only [continuation] at least most low_third high_third
  refine encode_char_three rfl lead (by omega) ⟨low_third, high_third⟩ (by omega) ?_
  rw [Nat.isValidChar]
  omega

/-- The second of four bytes keeps the number large enough and no larger than the last one. -/
private theorem completes_four (lead : 0xF0 ≤ byte.toNat ∧ byte.toNat ≤ 0xF4)
    (range : 0x80 ≤ low ∧ high ≤ 0xBF) (long : byte.toNat = 0xF0 → 0x90 ≤ low)
    (valid : byte.toNat = 0xF4 → high ≤ 0x8F) :
    Completes [byte] (leadValue byte.toNat) [(low, high), continuation, continuation] := by
  rw [leadValue, if_neg (by omega), if_neg (by omega)]
  intro second least most third low_third high_third fourth low_fourth high_fourth
  simp only [continuation] at least most low_third high_third low_fourth high_fourth
  exact encode_char_four rfl lead (by omega) ⟨low_third, high_third⟩ ⟨low_fourth, high_fourth⟩
    (by omega) (by omega)

/-- The first byte of a character starts it whatever follows. -/
theorem completes_lead {next : Nat × Nat} {later : List (Nat × Nat)}
    (follow : followers byte.toNat = next :: later) :
    Completes [byte] (leadValue byte.toNat) (next :: later) := by
  rw [followers] at follow
  -- One case for each row of the table, and a byte that starts no character has no row.
  split at follow
  · cases follow
  split at follow
  · rw [← follow]
    exact completes_two (by omega)
  split at follow
  · rw [← follow]
    exact completes_three (by omega) (by omega) (by omega) (by omega)
  split at follow
  · rw [← follow]
    exact completes_three (by omega) (by omega) (by omega) (by omega)
  split at follow
  · rw [← follow]
    exact completes_three (by omega) ⟨Nat.le_refl _, Nat.le_refl _⟩ (by omega) (by omega)
  split at follow
  · rw [← follow]
    exact completes_four (by omega) (by omega) (by omega) (by omega)
  split at follow
  · rw [← follow]
    exact completes_four (by omega) ⟨Nat.le_refl _, Nat.le_refl _⟩ (by omega) (by omega)
  split at follow
  · rw [← follow]
    exact completes_four (by omega) (by omega) (by omega) (by omega)
  · cases follow

end Leads

/-- What has been read of a character when decoding goes on. -/
def Held (before : Bytes) : Option Opened → Prop
  | none => before = []
  | some part => Completes before part.value (part.next :: part.later)

theorem encode_after {before : Bytes} {number index : Nat} {rest : Bytes} {text : Text}
    (complete : String.utf8EncodeChar (Char.ofNat number) = before)
    (later : ∀ text, decodeFrom index none rest = .ok text → encode text = rest)
    (read : (do let text ← decodeFrom index none rest; return Char.ofNat number :: text) =
      Except.ok text) : encode text = before ++ rest := by
  cases found : decodeFrom index none rest with
  | error flaw =>
    rw [found] at read
    cases read
  | ok others =>
    rw [found] at read
    cases read
    rw [Utf8.encode, List.flatMap_cons, complete, ← Utf8.encode, later others found]

/-- The bytes read before and those to come are the bytes of the text that is read. -/
theorem decode_from_encode {bytes before : Bytes} {index : Nat} {opened : Option Opened}
    {text : Text} (held : Held before opened) (read : decodeFrom index opened bytes = .ok text) :
    encode text = before ++ bytes := by
  induction bytes generalizing index before opened text with
  | nil =>
    cases opened with
    | none =>
      cases read
      rw [held]
      rfl
    | some part => cases read
  | cons byte rest ih =>
    have nothing : Held [] none := rfl
    have later : ∀ index text, decodeFrom index none rest = .ok text → encode text = rest :=
      fun index text read => ih nothing read
    cases opened with
    | none =>
      rw [held]
      show encode text = [byte] ++ rest
      simp only [decodeFrom] at read
      split at read
      · next ascii => exact encode_after (encode_char_one ascii) (later _) read
      · split at read
        · cases read
        · next next others follow =>
          have started : Held [byte] (some ⟨index, leadValue byte.toNat, next, others⟩) :=
            completes_lead follow
          exact ih started read
    | some part =>
      simp only [decodeFrom] at read
      split at read
      · cases read
      · next inside =>
        rw [Bool.or_eq_true, decide_eq_true_eq, decide_eq_true_eq, not_or] at inside
        have longer := held byte (Nat.le_of_not_lt inside.1) (Nat.le_of_not_lt inside.2)
        rw [List.append_cons]
        split at read
        · next next others more =>
          rw [more] at longer
          have goes_on : Held (before ++ [byte]) (some ⟨part.start, _, next, others⟩) := longer
          exact ih goes_on read
        · next last =>
          rw [last] at longer
          exact encode_after longer (later _) read

/-- Bytes that are a text are the bytes of that text. -/
theorem encode_decode {bytes : Bytes} {text : Text} (read : decode bytes = .ok text) :
    encode text = bytes := by
  have nothing : Held [] none := rfl
  exact decode_from_encode nothing read

/-- Different texts have different bytes. -/
theorem encode_inj {left right : Text} (same : encode left = encode right) : left = right := by
  have bytes : (String.ofList left).toByteArray = (String.ofList right).toByteArray := by
    rw [String.toByteArray_ofList, String.toByteArray_ofList]
    exact congrArg List.toByteArray same
  exact String.ofList_inj.mp (String.toByteArray_inj.mp bytes)

end LambdaLayout.Utf8
