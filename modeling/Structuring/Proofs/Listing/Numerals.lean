import Structuring.Bytecode.Printer
import Structuring.Proofs.Listing.Reading

/-! Numbers are read as they are written. -/

namespace Structuring

variable {c : Char} {text : List Char}

namespace Number

theorem bounds_of_isDigit (digit : c.isDigit = true) : 0x30 ≤ c.toNat ∧ c.toNat ≤ 0x39 := by
  rw [Char.isDigit, Bool.and_eq_true, decide_eq_true_eq, decide_eq_true_eq] at digit
  exact ⟨UInt32.le_iff_toNat_le.mp digit.1, UInt32.le_iff_toNat_le.mp digit.2⟩

theorem isDigit_of_mem {value : Nat} (member : c ∈ Nat.toDigits 10 value) : c.isDigit = true :=
  Nat.isDigit_of_mem_toDigits (by decide) (by decide) member

theorem toList_decimal (value : Nat) : (decimal value).toList = Nat.toDigits 10 value :=
  String.toList_ofList

theorem readDigits?_toDigits (value : Nat) : readDigits? (Nat.toDigits 10 value) = some value := by
  have digits : (Nat.toDigits 10 value).all Char.isDigit = true :=
    List.all_eq_true.mpr fun c member => isDigit_of_mem member
  have total := Nat.ofDigitChars_ten_toDigits (n := value)
  rw [Nat.ofDigitChars_eq_foldl] at total
  rw [readDigits?, if_neg (by simp [Nat.toDigits_ne_nil, digits]), total]

theorem exists_cons_of_toDigits (value : Nat) :
    ∃ first rest, Nat.toDigits 10 value = first :: rest ∧ first ≠ '-' ∧ first ≠ '+' := by
  obtain ⟨first, rest, isDigits⟩ := List.exists_cons_of_ne_nil (Nat.toDigits_ne_nil (n := value) (b := 10))
  have digit : first.isDigit = true := isDigit_of_mem (isDigits ▸ List.mem_cons_self)
  refine ⟨first, rest, isDigits, ?_, ?_⟩ <;>
  · rintro rfl
    exact absurd digit (by decide)

theorem readNat?_decimal (value : Nat) : readNat? (decimal value).toList = some value := by
  obtain ⟨first, rest, isDigits, _, notPlus⟩ := exists_cons_of_toDigits value
  rw [toList_decimal, isDigits, readNat?, ← isDigits, readDigits?_toDigits]
  exact fun _ same => notPlus (List.cons.inj same).1

theorem readInt?_signedDecimal (value : Int) : readInt? (signedDecimal value).toList = some value := by
  cases value with
  | ofNat value =>
    obtain ⟨first, rest, isDigits, notMinus, notPlus⟩ := exists_cons_of_toDigits value
    rw [signedDecimal, toList_decimal, isDigits, readInt?, ← isDigits, readDigits?_toDigits]
    · rfl
    · exact fun _ same => notMinus (List.cons.inj same).1
    · exact fun _ same => notPlus (List.cons.inj same).1
  | negSucc value =>
    rw [signedDecimal, String.toList_append, toList_decimal, show "-".toList = ['-'] from rfl,
      List.singleton_append, readInt?, readDigits?_toDigits]
    rfl

theorem readInt16?_signedDecimal (value : Int16) :
    readInt16? (signedDecimal value.toInt).toList = some value := by
  have low := value.le_toInt
  have high := value.toInt_lt
  rw [readInt16?, readInt?_signedDecimal, Option.bind_some, if_pos ⟨low, high⟩, Int16.ofInt_toInt]

theorem readInt32?_signedDecimal (value : Int32) :
    readInt32? (signedDecimal value.toInt).toList = some value := by
  have low := value.le_toInt
  have high := value.toInt_lt
  rw [readInt32?, readInt?_signedDecimal, Option.bind_some, if_pos ⟨low, high⟩, Int32.ofInt_toInt]

theorem readInt64?_signedDecimal (value : Int64) :
    readInt64? (signedDecimal value.toInt).toList = some value := by
  have low := value.le_toInt
  have high := value.toInt_lt
  rw [readInt64?, readInt?_signedDecimal, Option.bind_some, if_pos ⟨low, high⟩, Int64.ofInt_toInt]

theorem readUInt8?_decimal (value : UInt8) : readUInt8? (decimal value.toNat).toList = some value := by
  rw [readUInt8?, readNat?_decimal, Option.bind_some, if_pos value.toNat_lt, UInt8.ofNat_toNat]

theorem readUInt16?_decimal (value : UInt16) : readUInt16? (decimal value.toNat).toList = some value := by
  rw [readUInt16?, readNat?_decimal, Option.bind_some, if_pos value.toNat_lt, UInt16.ofNat_toNat]

theorem decimal_ne_nil (value : Nat) : (decimal value).toList ≠ [] := by
  rw [toList_decimal]
  exact Nat.toDigits_ne_nil

theorem signedDecimal_ne_nil (value : Int) : (signedDecimal value).toList ≠ [] := by
  cases value with
  | ofNat value => exact decimal_ne_nil value
  | negSucc value => simp [signedDecimal]

theorem bounds_of_mem_decimal {value : Nat} (member : c ∈ (decimal value).toList) :
    0x30 ≤ c.toNat ∧ c.toNat ≤ 0x39 :=
  bounds_of_isDigit (isDigit_of_mem (toList_decimal value ▸ member))

theorem bounds_of_mem_signedDecimal {value : Int} (member : c ∈ (signedDecimal value).toList) :
    0x30 ≤ c.toNat ∧ c.toNat ≤ 0x39 ∨ c = '-' := by
  cases value with
  | ofNat value => exact .inl (bounds_of_mem_decimal member)
  | negSucc value =>
    rw [signedDecimal, String.toList_append] at member
    rcases List.mem_append.mp member with isSign | isDigit
    · exact .inr (List.mem_singleton.mp isSign)
    · exact .inl (bounds_of_mem_decimal isDigit)

theorem mem_of_readDigits? (read : readDigits? text ≠ none) (member : c ∈ text) : c.isDigit = true := by
  unfold readDigits? at read
  split at read
  · exact absurd rfl read
  · next digits =>
    have digits : text ≠ [] ∧ ∀ c ∈ text, c.isDigit = true := by simpa using digits
    exact digits.2 c member

theorem mem_of_readInt? {value : Int} (read : readInt? text = some value)
    (member : c ∈ text) : c.isDigit = true ∨ c = '-' ∨ c = '+' := by
  unfold readInt? at read
  split at read
  · next digits =>
    have known : readDigits? digits ≠ none := fun none => by simp [none] at read
    exact (List.mem_cons.mp member).symm.imp (mem_of_readDigits? known) .inl
  · next digits =>
    have known : readDigits? digits ≠ none := fun none => by simp [none] at read
    exact (List.mem_cons.mp member).symm.imp (mem_of_readDigits? known) .inr
  · have known : readDigits? text ≠ none := fun none => by simp [none] at read
    exact .inl (mem_of_readDigits? known member)

end Number

end Structuring
