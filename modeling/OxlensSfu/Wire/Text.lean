import OxlensSfu.Forward.Ingress

/-!
# Texts as bytes

A text goes on the wire as its UTF-8 bytes and is read with `String::from_utf8_lossy`. Reading
gives back what was written (`fromUtf8Lossy_utf8`): the bytes of a character pass every test of
the reader, one case for each length a character can have.
-/

namespace OxlensSfu.Ingress

/-- A byte behind the head of a character. -/
def tailByte (m : Nat) : UInt8 := UInt8.ofNat (m % 0x40 + 0x80)

theorem tailByte_spec (m : Nat) :
    isCont (tailByte m) = true ∧ contBits (tailByte m) = m % 64 := by
  have h : ∀ r < 64, isCont (UInt8.ofNat (r + 0x80)) = true ∧
      contBits (UInt8.ofNat (r + 0x80)) = r := by decide
  exact h (m % 64) (Nat.mod_lt _ (by decide))

theorem head2_spec {h : Nat} (hlo : 2 ≤ h) (hhi : h < 32) :
    ¬ UInt8.ofNat (h + 0xc0) < 0x80 ∧ (0xc2 ≤ UInt8.ofNat (h + 0xc0) ∧
      UInt8.ofNat (h + 0xc0) ≤ 0xdf) ∧ (UInt8.ofNat (h + 0xc0) &&& 0x1f).toNat = h := by
  revert hlo
  revert h
  decide

theorem head3_spec {h : Nat} (hhi : h < 16) :
    ¬ UInt8.ofNat (h + 0xe0) < 0x80 ∧ ¬ (0xc2 ≤ UInt8.ofNat (h + 0xe0) ∧
      UInt8.ofNat (h + 0xe0) ≤ 0xdf) ∧ (0xe0 ≤ UInt8.ofNat (h + 0xe0) ∧
      UInt8.ofNat (h + 0xe0) ≤ 0xef) ∧ (UInt8.ofNat (h + 0xe0) &&& 0x0f).toNat = h := by
  revert h
  decide

theorem head4_spec {h : Nat} (hhi : h < 5) :
    ¬ UInt8.ofNat (h + 0xf0) < 0x80 ∧ ¬ (0xc2 ≤ UInt8.ofNat (h + 0xf0) ∧
      UInt8.ofNat (h + 0xf0) ≤ 0xdf) ∧ ¬ (0xe0 ≤ UInt8.ofNat (h + 0xf0) ∧
      UInt8.ofNat (h + 0xf0) ≤ 0xef) ∧ (0xf0 ≤ UInt8.ofNat (h + 0xf0) ∧
      UInt8.ofNat (h + 0xf0) ≤ 0xf4) ∧ (UInt8.ofNat (h + 0xf0) &&& 0x07).toNat = h := by
  revert h
  decide

/-- Not an encoding that is too long, and not a surrogate. -/
theorem second3_spec {h m : Nat} (hh : h < 16) (hlo : h = 0 → 32 ≤ m % 64)
    (hsur : h = 13 → m % 64 < 32) : second3 (UInt8.ofNat (h + 0xe0)) (tailByte m) = true := by
  have hall : ∀ h < 16, ∀ r < 64, (h = 0 → 32 ≤ r) → (h = 13 → r < 32) →
      second3 (UInt8.ofNat (h + 0xe0)) (UInt8.ofNat (r + 0x80)) = true := by decide
  exact hall h hh (m % 64) (Nat.mod_lt _ (by decide)) hlo hsur

theorem second4_spec {h m : Nat} (hh : h < 5) (hlo : h = 0 → 16 ≤ m % 64)
    (hhi : h = 4 → m % 64 < 16) : second4 (UInt8.ofNat (h + 0xf0)) (tailByte m) = true := by
  have hall : ∀ h < 5, ∀ r < 64, (h = 0 → 16 ≤ r) → (h = 4 → r < 16) →
      second4 (UInt8.ofNat (h + 0xf0)) (UInt8.ofNat (r + 0x80)) = true := by decide
  exact hall h hh (m % 64) (Nat.mod_lt _ (by decide)) hlo hhi

/-- The bytes of a character are read as that character. -/
theorem lossyChars_char (c : Char) (rest : List UInt8) :
    lossyChars (String.utf8EncodeChar c ++ rest) = c :: lossyChars rest := by
  have hval : Char.ofNat c.val.toNat = c := Char.ofNat_toNat c
  have hrange : c.val.toNat < 0xd800 ∨ 0xdfff < c.val.toNat ∧ c.val.toNat < 0x110000 := c.valid
  generalize hv : c.val.toNat = v at hval hrange
  rw [String.utf8EncodeChar, hv]
  split_ifs with h₁ h₂ h₃
  · have hbyte : (UInt8.ofNat v).toNat = v :=
      UInt8.toNat_ofNat_of_lt' (Nat.lt_of_le_of_lt h₁ (by decide))
    have hb : UInt8.ofNat v < 0x80 := by
      rw [UInt8.lt_iff_toNat_lt, hbyte]
      exact Nat.lt_succ_of_le h₁
    rw [List.cons_append, List.nil_append, lossyChars.eq_def]
    dsimp only
    rw [if_pos hb, hbyte, hval]
  · obtain ⟨hb, hhead, hbits⟩ := @head2_spec (v / 64 % 32) (by omega) (by omega)
    obtain ⟨hcont, htail⟩ := tailByte_spec v
    have hsum : v / 64 % 32 * 2 ^ 6 + v % 64 = v := by omega
    rw [List.cons_append, List.cons_append, List.nil_append, lossyChars.eq_def]
    simp only [← tailByte.eq_def, if_neg hb, if_pos hhead, if_pos hcont, hbits, htail, hsum, hval]
  · obtain ⟨hb, h2, hhead, hbits⟩ := @head3_spec (v / 4096 % 16) (by omega)
    obtain ⟨hcont₁, htail₁⟩ := tailByte_spec (v / 64)
    obtain ⟨hcont₀, htail₀⟩ := tailByte_spec v
    have hsecond := @second3_spec (v / 4096 % 16) (v / 64) (by omega) (by omega) (by omega)
    have hsum : v / 4096 % 16 * 2 ^ 12 + v / 64 % 64 * 2 ^ 6 + v % 64 = v := by omega
    rw [List.cons_append, List.cons_append, List.cons_append, List.nil_append, lossyChars.eq_def]
    simp only [← tailByte.eq_def, if_neg hb, if_neg h2, if_pos hhead, if_pos hsecond,
      if_pos hcont₀, hbits, htail₁, htail₀, hsum, hval]
  · obtain ⟨hb, h2, h3, hhead, hbits⟩ := @head4_spec (v / 262144 % 8) (by omega)
    obtain ⟨hcont₂, htail₂⟩ := tailByte_spec (v / 4096)
    obtain ⟨hcont₁, htail₁⟩ := tailByte_spec (v / 64)
    obtain ⟨hcont₀, htail₀⟩ := tailByte_spec v
    have hsecond := @second4_spec (v / 262144 % 8) (v / 4096) (by omega) (by omega) (by omega)
    have hsum : v / 262144 % 8 * 2 ^ 18 + v / 4096 % 64 * 2 ^ 12 + v / 64 % 64 * 2 ^ 6 + v % 64 =
        v := by omega
    rw [List.cons_append, List.cons_append, List.cons_append, List.cons_append, List.nil_append,
      lossyChars.eq_def]
    simp only [← tailByte.eq_def, if_neg hb, if_neg h2, if_neg h3, if_pos hhead, if_pos hsecond,
      if_pos hcont₁, if_pos hcont₀, hbits, htail₂, htail₁, htail₀, hsum, hval]

/-- `utf8`. -/
def utf8 (s : String) : List UInt8 := s.toUTF8.data.toList

theorem utf8_length (s : String) : (utf8 s).length = s.utf8ByteSize := rfl

/-- **Reading the bytes of a text gives the text.** -/
theorem fromUtf8Lossy_utf8 (s : String) : fromUtf8Lossy (utf8 s) = s := by
  have hbytes : utf8 s = s.toList.flatMap String.utf8EncodeChar := by
    conv_lhs => rw [← String.ofList_toList (s := s)]
    exact List.toList_data_toByteArray
  have hread : ∀ l : List Char, lossyChars (l.flatMap String.utf8EncodeChar) = l := by
    intro l
    induction l with
    | nil => rw [List.flatMap_nil, lossyChars]
    | cons c l ih => rw [List.flatMap_cons, lossyChars_char, ih]
  rw [fromUtf8Lossy, hbytes, hread, String.ofList_toList]

end OxlensSfu.Ingress
