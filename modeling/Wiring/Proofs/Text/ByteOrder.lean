/-!
# The order of names

Names are compared character by character. Their encodings, compared byte by byte, are in the same
order: the first byte of a character says how long its encoding is, a longer encoding starts with a
greater byte, and the other bytes hold the remaining digits from the highest down.

## Main statements

- `Text.utf8_lt_utf8` — the encodings of names are in the order of the names
-/

namespace Wiring.Text

/-- The bytes of a name. -/
def utf8 (name : String) : List UInt8 := name.toUTF8.data.toList

theorem utf8_eq (name : String) : utf8 name = name.toList.flatMap String.utf8EncodeChar := by
  rw [utf8, String.toUTF8, ← String.utf8Encode_toList, List.utf8Encode, List.data_toByteArray]

theorem ofNat_lt_ofNat {m n : Nat} (hm : m < 256) (hn : n < 256) :
    UInt8.ofNat m < UInt8.ofNat n ↔ m < n := by
  rw [UInt8.lt_iff_toNat_lt, UInt8.toNat_ofNat', UInt8.toNat_ofNat', Nat.mod_eq_of_lt hm,
    Nat.mod_eq_of_lt hn]

theorem ofNat_eq_ofNat {m n : Nat} (hm : m < 256) (hn : n < 256) :
    UInt8.ofNat m = UInt8.ofNat n ↔ m = n := by
  rw [← UInt8.toNat_inj, UInt8.toNat_ofNat', UInt8.toNat_ofNat', Nat.mod_eq_of_lt hm,
    Nat.mod_eq_of_lt hn]

/-- A greater character has a greater encoding, whatever follows it. -/
theorem utf8EncodeChar_append_lt {c d : Char} (h : c < d) (rest rest' : List UInt8) :
    String.utf8EncodeChar c ++ rest < String.utf8EncodeChar d ++ rest' := by
  have hlt : c.val.toNat < d.val.toNat := UInt32.lt_iff_toNat_lt.1 (Char.lt_def.1 h)
  have hmax : d.val.toNat < 0x110000 := by
    have := d.valid
    simp only [UInt32.isValidChar, Nat.isValidChar] at this
    omega
  -- all digits are to the base 64
  have hthird (v : Nat) : v / 4096 = v / 64 / 64 := (Nat.div_div_eq_div_mul v 64 64).symm
  have hfourth (v : Nat) : v / 262144 = v / 64 / 64 / 64 := by
    rw [Nat.div_div_eq_div_mul, Nat.div_div_eq_div_mul]
  unfold String.utf8EncodeChar
  dsimp only
  repeat' split
  all_goals
    simp (disch := omega) only [List.cons_append, List.nil_append, List.cons_lt_cons_iff,
      ofNat_lt_ofNat, ofNat_eq_ofNat, hthird, hfourth]
    omega

/-- **The encodings of names are in the order of the names.** -/
theorem utf8_lt_utf8 {x y : String} (h : x < y) : utf8 x < utf8 y := by
  rw [utf8_eq, utf8_eq]
  have hlists : ∀ cs ds : List Char, cs < ds →
      cs.flatMap String.utf8EncodeChar < ds.flatMap String.utf8EncodeChar := by
    intro cs
    induction cs with
    | nil =>
      intro ds hds
      cases ds with
      | nil => exact absurd hds (List.not_lt_nil [])
      | cons d ds =>
        rw [List.flatMap_nil, List.flatMap_cons]
        cases hd : String.utf8EncodeChar d with
        | nil =>
          have := String.length_utf8EncodeChar d
          rw [hd] at this
          exact absurd this (Nat.ne_of_lt d.utf8Size_pos)
        | cons b bs => exact List.nil_lt_cons b _
    | cons c cs ih =>
      intro ds hds
      cases ds with
      | nil => exact absurd hds (List.not_lt_nil _)
      | cons d ds =>
        rw [List.flatMap_cons, List.flatMap_cons]
        rcases List.cons_lt_cons_iff.1 hds with hlt | ⟨rfl, hrest⟩
        · exact utf8EncodeChar_append_lt hlt _ _
        · exact List.append_left_lt (ih ds hrest)
  exact hlists _ _ (String.lt_iff.1 h)

end Wiring.Text
