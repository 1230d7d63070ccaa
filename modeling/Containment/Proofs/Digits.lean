namespace Containment

/-! Numbers are told apart by how they are written in decimal digits. -/

theorem toDigits_injective : Function.Injective (Nat.toDigits 10) := by
  intro left right heq
  have hvalue := congrArg (Nat.ofDigitChars 10 · 0) heq
  simpa only [Nat.ofDigitChars_ten_toDigits] using hvalue

theorem isDigit_of_mem_repr {number : Nat} {character : Char}
    (hmem : character ∈ number.repr.toList) : character.isDigit = true := by
  rw [Nat.toList_repr] at hmem
  exact Nat.isDigit_of_mem_toDigits (by decide) (by decide) hmem

theorem naturalRepr_injective : Function.Injective Nat.repr := by
  intro left right heq
  have hdigits := congrArg String.toList heq
  rw [Nat.toList_repr, Nat.toList_repr] at hdigits
  exact toDigits_injective hdigits

/-! An integer has a minus sign in front of its digits, or none. -/

theorem repr_ne_minus_append (number : Nat) (rest : String) : number.repr ≠ "-" ++ rest := by
  intro heq
  have hminus : '-' ∈ number.repr.toList := by simp [heq]
  have hdigit := isDigit_of_mem_repr hminus
  contradiction

theorem integerRepr_injective : Function.Injective Int.repr := by
  intro left right heq
  rw [Int.repr_eq_if, Int.repr_eq_if] at heq
  split at heq <;> split at heq
  · have hnatural := naturalRepr_injective heq
    omega
  · exact absurd heq (repr_ne_minus_append _ _)
  · exact absurd heq.symm (repr_ne_minus_append _ _)
  · have hdigits := congrArg String.toList heq
    rw [String.toList_append, String.toList_append] at hdigits
    have hnatural :=
      naturalRepr_injective (String.toList_inj.mp (List.append_cancel_left hdigits))
    omega

end Containment
