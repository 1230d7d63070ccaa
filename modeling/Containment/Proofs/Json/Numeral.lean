import Containment.Proofs.Json.Grammar

namespace Containment.Json.Numeral

/-! Each part of a numeral takes its own characters off the front and leaves the next part. -/

/-- A run of digits ends here. -/
def NoDigit (rest : List Char) : Prop :=
  ∀ character, rest.head? = some character → character.isDigit = false

theorem noDigit_nil : NoDigit [] := by
  intro character hcharacter
  cases hcharacter

theorem noDigit_cons {character : Char} (hdigit : character.isDigit = false) (rest : List Char) :
    NoDigit (character :: rest) := by
  intro other hother
  cases hother
  exact hdigit

theorem Digits.exists_cons {digits : List Char} (hdigits : Digits digits) :
    ∃ first rest, digits = first :: rest ∧ first.isDigit = true := by
  obtain ⟨hne, hall⟩ := hdigits
  obtain ⟨first, rest, rfl⟩ := List.exists_cons_of_ne_nil hne
  exact ⟨first, rest, rfl, hall first List.mem_cons_self⟩

theorem someDigits_append {digits rest : List Char} (hdigits : Digits digits)
    (hrest : NoDigit rest) : someDigits (digits ++ rest) = some rest := by
  obtain ⟨first, later, rfl, hfirst⟩ := hdigits.exists_cons
  have hlater : ∀ digit ∈ later, digit.isDigit = true :=
    fun digit hdigit => hdigits.2 digit (List.mem_cons_of_mem first hdigit)
  rw [List.cons_append, someDigits, if_pos hfirst, List.dropWhile_append_of_pos hlater]
  cases rest with
  | nil => rfl
  | cons character rest =>
      rw [List.dropWhile_cons_of_neg]
      rw [hrest character rfl]
      decide

theorem whole_append {text rest : List Char} (hwhole : Whole text) (hrest : NoDigit rest) :
    whole (text ++ rest) = some rest := by
  obtain ⟨hdigits, hzero⟩ := hwhole
  obtain ⟨first, later, rfl, _⟩ := hdigits.exists_cons
  by_cases hfirst : first = '0'
  · subst hfirst
    rw [hzero rfl]
    rfl
  · have hskip : whole (first :: later ++ rest) = someDigits (first :: later ++ rest) := by
      rw [List.cons_append, whole]
      intro other heq
      exact hfirst (List.cons.inj heq).1
    rw [hskip, someDigits_append hdigits hrest]

theorem isDigit_of_mark {mark : Char} (hmark : mark ∈ ['e', 'E']) : mark.isDigit = false := by
  simp only [List.mem_cons, List.not_mem_nil, or_false] at hmark
  rcases hmark with rfl | rfl <;> rfl

theorem Exponent.noDigit {text : List Char} (hexponent : Exponent text) : NoDigit text := by
  cases hexponent with
  | absent => exact noDigit_nil
  | present hmark => exact noDigit_cons (isDigit_of_mark hmark) _

theorem exponent_eq {text : List Char} (hexponent : Exponent text) : exponent text = some [] := by
  cases hexponent with
  | absent => rfl
  | @present mark sign digits hmark hsign hdigits =>
      have hsigned : exponentSigned (sign ++ digits) = digits := by
        obtain ⟨first, later, rfl, hfirst⟩ := hdigits.exists_cons
        simp only [List.mem_cons, List.not_mem_nil, or_false] at hsign
        rcases hsign with rfl | rfl | rfl
        · rw [List.nil_append, exponentSigned]
          · rintro rest heq
            cases heq
            contradiction
          · rintro rest heq
            cases heq
            contradiction
        · rfl
        · rfl
      have hread := someDigits_append hdigits noDigit_nil
      rw [List.append_nil] at hread
      simp only [List.mem_cons, List.not_mem_nil, or_false] at hmark
      rcases hmark with rfl | rfl <;> rw [exponent, hsigned, hread]

theorem Fraction.noDigit_append {text rest : List Char} (hfraction : Fraction text)
    (hrest : NoDigit rest) : NoDigit (text ++ rest) := by
  cases hfraction with
  | absent => exact hrest
  | present => exact noDigit_cons rfl _

theorem fraction_append {text rest : List Char} (hfraction : Fraction text)
    (hrest : Exponent rest) : fraction (text ++ rest) = some rest := by
  cases hfraction with
  | absent =>
      cases hrest with
      | absent => rfl
      | present hmark =>
          simp only [List.mem_cons, List.not_mem_nil, or_false] at hmark
          rcases hmark with rfl | rfl <;> rfl
  | present hdigits =>
      rw [List.cons_append, fraction]
      exact someDigits_append hdigits hrest.noDigit

theorem unsigned_append {sign text rest : List Char} (hsign : sign ∈ [[], ['-']])
    (hwhole : Whole text) : unsigned (sign ++ (text ++ rest)) = text ++ rest := by
  simp only [List.mem_cons, List.not_mem_nil, or_false] at hsign
  rcases hsign with rfl | rfl
  · obtain ⟨first, later, rfl, hfirst⟩ := hwhole.1.exists_cons
    rw [List.nil_append, List.cons_append, unsigned]
    rintro other heq
    cases heq
    contradiction
  · rfl

theorem Spelled.isWellFormed {literal : List Char} (hspelled : Spelled literal) :
    isWellFormed literal = true := by
  cases hspelled with
  | parts hsign hwhole hfraction hexponent =>
      rw [Numeral.isWellFormed, unsigned_append hsign hwhole,
        whole_append hwhole (hfraction.noDigit_append hexponent.noDigit), Option.bind_eq_bind,
        Option.bind_some, fraction_append hfraction hexponent,
        Option.bind_some, exponent_eq hexponent]
      rfl

/-! What a numeral is made of, and what it begins with. -/

theorem continues_of_isDigit {character : Char} (hdigit : character.isDigit = true) :
    continues character = true := by
  rw [continues, hdigit, Bool.true_or]

theorem Digits.all_continue {digits : List Char} (hdigits : Digits digits) :
    ∀ character ∈ digits, continues character = true :=
  fun character hcharacter => continues_of_isDigit (hdigits.2 character hcharacter)

theorem Fraction.all_continue {text : List Char} (hfraction : Fraction text) :
    ∀ character ∈ text, continues character = true := by
  cases hfraction with
  | absent => exact fun _ hcharacter => absurd hcharacter List.not_mem_nil
  | present hdigits => exact List.forall_mem_cons.mpr ⟨by decide, hdigits.all_continue⟩

theorem Exponent.all_continue {text : List Char} (hexponent : Exponent text) :
    ∀ character ∈ text, continues character = true := by
  cases hexponent with
  | absent => exact fun _ hcharacter => absurd hcharacter List.not_mem_nil
  | @present mark sign digits hmark hsign hdigits =>
      have hmarks : ['e', 'E'].all continues = true := by decide
      have hsigns : ∀ text ∈ [[], ['+'], ['-']], text.all continues = true := by decide
      refine List.forall_mem_cons.mpr ⟨List.all_eq_true.mp hmarks mark hmark, ?_⟩
      exact List.forall_mem_append.mpr
        ⟨List.all_eq_true.mp (hsigns sign hsign), hdigits.all_continue⟩

theorem Spelled.all_continue {literal : List Char} (hspelled : Spelled literal) :
    ∀ character ∈ literal, continues character = true := by
  cases hspelled with
  | @parts sign whole fraction exponent hsign hwhole hfraction hexponent =>
      have hsigns : ∀ text ∈ [[], ['-']], text.all continues = true := by decide
      simp only [List.forall_mem_append]
      exact ⟨List.all_eq_true.mp (hsigns sign hsign), hwhole.1.all_continue,
        hfraction.all_continue, hexponent.all_continue⟩

theorem Spelled.exists_cons {literal : List Char} (hspelled : Spelled literal) :
    ∃ first rest, literal = first :: rest ∧ (first = '-' ∨ first.isDigit = true) := by
  cases hspelled with
  | parts hsign hwhole =>
      simp only [List.mem_cons, List.not_mem_nil, or_false] at hsign
      rcases hsign with rfl | rfl
      · obtain ⟨first, later, rfl, hfirst⟩ := hwhole.1.exists_cons
        exact ⟨first, _, rfl, Or.inr hfirst⟩
      · exact ⟨'-', _, rfl, Or.inl rfl⟩

end Containment.Json.Numeral
