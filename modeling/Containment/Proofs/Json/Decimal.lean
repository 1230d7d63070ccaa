import Containment.Proofs.Json.Numeral

namespace Containment.Json.Numeral

/-! A whole numeral is the decimal spelling of its value, and of no other one. -/

theorem eq_zero_of_head?_toDigits {number : Nat}
    (hhead : (Nat.toDigits 10 number).head? = some '0') : number = 0 := by
  induction number using Nat.base_induction 10 (by decide) with
  | single number hlt =>
      rw [Nat.toDigits_of_lt_base hlt, List.head?_cons, Option.some.injEq] at hhead
      exact Nat.digitChar_eq_zero.mp hhead
  | digit number digit hdigit hpos induction =>
      refine absurd (induction ?_) (Nat.ne_of_gt hpos)
      obtain ⟨first, rest, heq⟩ := List.exists_cons_of_ne_nil Nat.toDigits_ne_nil
      rw [← Nat.toDigits_append_toDigits (by decide) hpos hdigit, heq] at hhead
      rw [heq]
      exact hhead

theorem whole_toDigits (number : Nat) : Whole (Nat.toDigits 10 number) := by
  refine ⟨⟨Nat.toDigits_ne_nil, ?_⟩, ?_⟩
  · intro character hcharacter
    exact Nat.isDigit_of_mem_toDigits (by decide) (by decide) hcharacter
  · intro hhead
    rw [eq_zero_of_head?_toDigits hhead]
    rfl

theorem exists_digitChar {digit : Char} (hdigit : digit.isDigit = true) :
    ∃ number < 10, digit = Nat.digitChar number := by
  obtain ⟨hzero, hnine⟩ := Char.isDigit_iff_toNat.mp hdigit
  have hlt : digit.toNat - '0'.toNat < 10 :=
    Nat.sub_lt_left_of_lt_add hzero (Nat.lt_succ_of_le hnine)
  refine ⟨digit.toNat - '0'.toNat, hlt, Char.toNat_inj.mp ?_⟩
  rw [Nat.toNat_digitChar_of_lt_ten hlt]
  exact (Nat.add_sub_of_le hzero).symm

theorem toDigits_append {digits : List Char}
    (hdigits : ∀ character ∈ digits, character.isDigit = true) {number : Nat}
    (hpos : 0 < number) :
    Nat.toDigits 10 number ++ digits =
      Nat.toDigits 10 (Nat.ofDigitChars 10 digits number) := by
  induction digits generalizing number with
  | nil => rw [List.append_nil, Nat.ofDigitChars_nil]
  | cons digit digits induction =>
      obtain ⟨last, hlt, rfl⟩ := exists_digitChar (hdigits digit List.mem_cons_self)
      rw [Nat.ofDigitChars_cons_digitChar_of_lt_ten hlt,
        ← induction (fun later hlater => hdigits later (List.mem_cons_of_mem _ hlater))
          (Nat.add_pos_left (Nat.mul_pos (by decide) hpos) last),
        ← Nat.toDigits_append_toDigits (by decide) hpos hlt, Nat.toDigits_of_lt_base hlt,
        List.append_assoc, List.singleton_append]

theorem toDigits_ofDigitChars {digits : List Char} (hwhole : Whole digits) :
    Nat.toDigits 10 (Nat.ofDigitChars 10 digits 0) = digits := by
  obtain ⟨⟨hne, hdigits⟩, hzero⟩ := hwhole
  obtain ⟨first, rest, rfl⟩ := List.exists_cons_of_ne_nil hne
  obtain ⟨value, hlt, rfl⟩ := exists_digitChar (hdigits first List.mem_cons_self)
  rw [Nat.ofDigitChars_cons_digitChar_of_lt_ten hlt, Nat.mul_zero, Nat.zero_add]
  rcases Nat.eq_zero_or_pos value with rfl | hpos
  · obtain rfl : rest = [] := (List.cons.inj (hzero rfl)).2
    rfl
  · have hrest : ∀ later ∈ rest, later.isDigit = true :=
      fun later hlater => hdigits later (List.mem_cons_of_mem _ hlater)
    rw [← toDigits_append hrest hpos, Nat.toDigits_of_lt_base hlt, List.singleton_append]

/-! Of the numerals that JSON knows, the whole ones without a sign have digits alone. -/

theorem Whole.spelled {digits : List Char} (hwhole : Whole digits) : Spelled digits := by
  have hspelled := Spelled.parts List.mem_cons_self hwhole Fraction.absent Exponent.absent
  rwa [List.nil_append, List.append_nil, List.append_nil] at hspelled

theorem Spelled.whole_of_digits {literal : List Char} (hspelled : Spelled literal)
    (hdigits : ∀ character ∈ literal, character.isDigit = true) : Whole literal := by
  cases hspelled with
  | parts hsign hwhole hfraction hexponent =>
      simp only [List.forall_mem_append] at hdigits
      obtain ⟨hsigned, -, hpoint, hmarked⟩ := hdigits
      simp only [List.mem_cons, List.not_mem_nil, or_false] at hsign
      rcases hsign with rfl | rfl
      · cases hfraction with
        | present => exact absurd (hpoint '.' List.mem_cons_self) (by decide)
        | absent =>
            cases hexponent with
            | present hmark =>
                have hdigit := hmarked _ List.mem_cons_self
                rw [isDigit_of_mark hmark] at hdigit
                cases hdigit
            | absent => rwa [List.nil_append, List.append_nil, List.append_nil]
      · exact absurd (hsigned '-' List.mem_cons_self) (by decide)

end Containment.Json.Numeral
