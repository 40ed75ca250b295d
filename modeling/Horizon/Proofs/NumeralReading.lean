import Horizon.Atom.Grammar
import Horizon.Proofs.TextSpans
import Horizon.Text.Numeral

/-!
Reading numerals back. A 32-bit numeral is read as its value exactly when it is made of
digits, with a plus sign before them or without one, and the value fits; the digit that leaves
the range is the point where reading stops, because the value never goes down again. A signed
number at the front of a text is read as far as its digits go, if it fits in 64 bits. What is
written is read back.
-/

namespace Horizon
namespace Numeral

open Grammar

theorem le_ofDigitChars (n : Nat) (s : Text) : n ≤ Nat.ofDigitChars 10 s n := by
  induction s generalizing n with
  | nil => simp
  | cons c s ih =>
      rw [Nat.ofDigitChars_cons]
      have hrest := ih (10 * n + (c.toNat - '0'.toNat))
      omega

theorem readFrom_eq_ok_iff {n m : Nat} (hn : n < UInt32.size) (s : Text) :
    readFrom n s = .ok m ↔
      (∀ c ∈ s, c.isDigit = true) ∧ Nat.ofDigitChars 10 s n = m ∧ m < UInt32.size := by
  induction s generalizing n with
  | nil =>
      simp only [readFrom, Nat.ofDigitChars_nil]
      constructor
      · intro h
        cases h
        exact ⟨by simp, rfl, hn⟩
      · rintro ⟨-, rfl, -⟩
        rfl
  | cons c s ih =>
      rw [readFrom, Nat.ofDigitChars_cons]
      by_cases hc : c.isDigit = true
      · by_cases hm : 10 * n + (c.toNat - '0'.toNat) < UInt32.size
        · simp only [hc, hm, if_true, ih hm, List.mem_cons, forall_eq_or_imp, true_and]
        · have hle := le_ofDigitChars (10 * n + (c.toNat - '0'.toNat)) s
          simp only [hc, hm, if_true, if_false]
          constructor
          · intro h; contradiction
          · rintro ⟨-, rfl, hlt⟩
            omega
      · simp [hc]

theorem stopsAt_plus_of_digits {s : Text} (h : Digits s) : Text.StopsAt (· == '+') s := by
  cases h with
  | mk hne hd =>
      intro c hc
      have digit : c.isDigit = true := hd c (List.mem_of_mem_head? hc)
      rw [beq_eq_false_iff_ne]
      rintro rfl
      contradiction

/-- Digits are read if and only if their value is the number that is given. -/
theorem readDigits_eq_ok_iff {s : Text} (hne : s ≠ []) (n : UInt32) :
    (readFrom 0 s).map UInt32.ofNat = .ok n ↔ Digits s ∧ Nat.ofDigitChars 10 s 0 = n.toNat := by
  constructor
  · intro h
    cases hvalue : readFrom 0 s with
    | error e => rw [hvalue] at h; contradiction
    | ok m =>
        rw [hvalue] at h
        have hn : UInt32.ofNat m = n := by injection h
        obtain ⟨hd, hm, hlt⟩ := (readFrom_eq_ok_iff (by decide) s).mp hvalue
        refine ⟨.mk hne hd, ?_⟩
        rw [hm, ← hn, UInt32.toNat_ofNat_of_lt' hlt]
  · rintro ⟨⟨-, hd⟩, hm⟩
    have hvalue : readFrom 0 s = .ok n.toNat :=
      (readFrom_eq_ok_iff (by decide) s).mpr ⟨hd, hm, n.toNat_lt⟩
    rw [hvalue]
    simp [Except.map]

theorem digits_ne_nil {s : Text} (h : Digits s) : s ≠ [] := by
  cases h with
  | mk hne _ => exact hne

/-- A numeral without a plus sign is read if and only if it is a run of digits of the
value that is given. -/
theorem read32_eq_ok_iff {s : Text} (plus : Text.StopsAt (· == '+') s) (n : UInt32) :
    read32 s = .ok n ↔ Digits s ∧ Nat.ofDigitChars 10 s 0 = n.toNat := by
  cases s with
  | nil => exact iff_of_false nofun fun h => digits_ne_nil h.1 rfl
  | cons c s =>
      have hc : c ≠ '+' := by simpa using plus
      have hread : read32 (c :: s) = (readFrom 0 (c :: s)).map UInt32.ofNat := by
        unfold read32
        split <;> simp_all
      rw [hread, readDigits_eq_ok_iff (List.cons_ne_nil c s)]

/-- The numerals with their values: a plus sign if there is one, and digits. -/
inductive Unsigned : Text → Nat → Prop
  | plain {s : Text} : Digits s → Unsigned s (Nat.ofDigitChars 10 s 0)
  | signed {s : Text} : Digits s → Unsigned ('+' :: s) (Nat.ofDigitChars 10 s 0)

theorem read32_plus (s : Text) (n : UInt32) :
    read32 ('+' :: s) = .ok n ↔ Digits s ∧ Nat.ofDigitChars 10 s 0 = n.toNat := by
  cases s with
  | nil => exact iff_of_false nofun fun h => digits_ne_nil h.1 rfl
  | cons c s => exact readDigits_eq_ok_iff (List.cons_ne_nil c s) n

theorem read32_eq_ok_iff_unsigned (s : Text) (n : UInt32) :
    read32 s = .ok n ↔ Unsigned s n.toNat := by
  constructor
  · intro h
    by_cases hs : ∃ r, s = '+' :: r
    · obtain ⟨r, rfl⟩ := hs
      obtain ⟨hd, hm⟩ := (read32_plus r n).mp h
      exact hm ▸ .signed hd
    · have plus : Text.StopsAt (· == '+') s := by
        cases s with
        | nil => simp
        | cons c s => simpa using fun hc : c = '+' => hs ⟨s, by rw [hc]⟩
      obtain ⟨hd, hm⟩ := (read32_eq_ok_iff plus n).mp h
      exact hm ▸ .plain hd
  · intro h
    generalize hv : n.toNat = v at h
    cases h with
    | plain hd => exact (read32_eq_ok_iff (stopsAt_plus_of_digits hd) n).mpr ⟨hd, hv.symm⟩
    | signed hd => exact (read32_plus _ n).mpr ⟨hd, hv.symm⟩

/-- A text is refused if and only if it is no numeral of a value that fits in 32 bits. -/
theorem exists_read32_eq_error_iff (s : Text) :
    (∃ cause, read32 s = .error cause) ↔ ¬ ∃ v, Unsigned s v ∧ v < 4294967296 := by
  cases h : read32 s with
  | error cause =>
      refine iff_of_true ⟨cause, rfl⟩ ?_
      rintro ⟨v, hs, hlt⟩
      have hv : (UInt32.ofNat v).toNat = v := UInt32.toNat_ofNat_of_lt' hlt
      have hread := (read32_eq_ok_iff_unsigned s (UInt32.ofNat v)).mpr (hv.symm ▸ hs)
      rw [h] at hread
      contradiction
  | ok n =>
      refine iff_of_false nofun (not_not_intro ?_)
      exact ⟨n.toNat, (read32_eq_ok_iff_unsigned s n).mp h, n.toNat_lt⟩

theorem digits_write (n : Nat) : Digits (write n) :=
  .mk Nat.toDigits_ne_nil fun _ hc => Nat.isDigit_of_mem_toDigits (by decide) (by decide) hc

theorem ofDigitChars_write (n : Nat) : Nat.ofDigitChars 10 (write n) 0 = n :=
  Nat.ofDigitChars_ten_toDigits

theorem takeWhile_digits {s r : Text} (hs : Digits s) (hr : Text.StopsAt Char.isDigit r) :
    (s ++ r).takeWhile Char.isDigit = s := by
  cases hs with
  | mk _ hd => exact Text.takeWhile_run hd hr

/-- A numeral ends where its digits end, so it tells its number. -/
theorem write_append_inj {m n : Nat} {u v : Text} (hu : Text.StopsAt Char.isDigit u)
    (hv : Text.StopsAt Char.isDigit v) (h : write m ++ u = write n ++ v) : m = n := by
  have same : write m = write n := by
    rw [← takeWhile_digits (digits_write m) hu, h, takeWhile_digits (digits_write n) hv]
  rw [← ofDigitChars_write m, same, ofDigitChars_write n]

theorem read32_write (n : UInt32) : read32 (write n.toNat) = .ok n := by
  have hd := digits_write n.toNat
  rw [read32_eq_ok_iff (stopsAt_plus_of_digits hd)]
  exact ⟨hd, ofDigitChars_write n.toNat⟩

/-! Numbers with a sign. -/

/-- The number that a text starts with: a minus sign if there is one, and all digits up to the
first character that is none. -/
inductive Leading : Text → Int → Prop
  | plain {s r : Text} : Digits s → Text.StopsAt Char.isDigit r →
      Leading (s ++ r) (Nat.ofDigitChars 10 s 0 : Nat)
  | negative {s r : Text} : Digits s → Text.StopsAt Char.isDigit r →
      Leading ('-' :: (s ++ r)) (-(Nat.ofDigitChars 10 s 0 : Nat))

theorem exists_digits {s : Text} (h : s.takeWhile Char.isDigit ≠ []) :
    ∃ r, s = s.takeWhile Char.isDigit ++ r ∧ Digits (s.takeWhile Char.isDigit) ∧
      Text.StopsAt Char.isDigit r := by
  exact ⟨s.dropWhile Char.isDigit, List.takeWhile_append_dropWhile.symm,
    .mk h Text.of_mem_takeWhile, Text.stopsAt_dropWhile Char.isDigit s⟩

theorem digits_ne_minus {s : Text} (h : Digits s) (r t : Text) : s ++ r ≠ '-' :: t := by
  cases h with
  | mk hne hd =>
      obtain ⟨c, s, rfl⟩ := List.exists_cons_of_ne_nil hne
      intro heq
      injection heq with hc _
      have digit := hd c List.mem_cons_self
      rw [hc] at digit
      contradiction

theorem leading_minus_iff (s : Text) (n : Int) :
    Leading ('-' :: s) n ↔ s.takeWhile Char.isDigit ≠ [] ∧
      n = -(Nat.ofDigitChars 10 (s.takeWhile Char.isDigit) 0 : Nat) := by
  constructor
  · intro h
    generalize hs : '-' :: s = t at h
    cases h with
    | plain hd hr => exact absurd hs.symm (digits_ne_minus hd _ s)
    | negative hd hr =>
        injection hs with _ hs
        rw [hs, takeWhile_digits hd hr]
        cases hd with
        | mk hne _ => exact ⟨hne, rfl⟩
  · rintro ⟨hne, rfl⟩
    obtain ⟨r, hs, hd, hr⟩ := exists_digits hne
    have h := Leading.negative hd hr
    rwa [← hs] at h

theorem leading_plain_iff {s : Text} (h : ∀ r, s ≠ '-' :: r) (n : Int) :
    Leading s n ↔ s.takeWhile Char.isDigit ≠ [] ∧
      n = (Nat.ofDigitChars 10 (s.takeWhile Char.isDigit) 0 : Nat) := by
  constructor
  · rintro (⟨hd, hr⟩ | ⟨hd, hr⟩)
    · rw [takeWhile_digits hd hr]
      cases hd with
      | mk hne _ => exact ⟨hne, rfl⟩
    · exact absurd rfl (h _)
  · rintro ⟨hne, rfl⟩
    obtain ⟨r, hs, hd, hr⟩ := exists_digits hne
    have h := Leading.plain hd hr
    rwa [← hs] at h

/-- A text starts with one number at most. -/
theorem Leading.unique {s : Text} {m n : Int} (h : Leading s m) (k : Leading s n) : m = n := by
  by_cases hs : ∃ r, s = '-' :: r
  · obtain ⟨r, rfl⟩ := hs
    rw [((leading_minus_iff r m).mp h).2, ((leading_minus_iff r n).mp k).2]
  · have plain : ∀ r, s ≠ '-' :: r := not_exists.mp hs
    rw [((leading_plain_iff plain m).mp h).2, ((leading_plain_iff plain n).mp k).2]

theorem leading_writeInt {r : Text} (hr : Text.StopsAt Char.isDigit r) (n : Int) :
    Leading (writeInt n ++ r) n := by
  cases n with
  | ofNat n =>
      have h := Leading.plain (digits_write n) hr
      rwa [ofDigitChars_write] at h
  | negSucc n =>
      have h := Leading.negative (digits_write (n + 1)) hr
      rwa [ofDigitChars_write] at h

/-- The range of signed 64-bit numbers. -/
def Signed64 (n : Int) : Prop := -9223372036854775808 ≤ n ∧ n ≤ 9223372036854775807

instance (n : Int) : Decidable (Signed64 n) := inferInstanceAs (Decidable (_ ∧ _))

theorem leading64?_eq_some_iff (s : Text) (n : Int) :
    leading64? s = some n ↔ Leading s n ∧ Signed64 n := by
  have bound : limit64 = 9223372036854775808 := rfl
  unfold leading64? Signed64
  split
  · next r =>
      simp only [leading_minus_iff, Option.ite_none_left_eq_some, Bool.or_eq_true,
        List.isEmpty_iff, decide_eq_true_eq, not_or, Option.some.injEq]
      constructor
      · rintro ⟨⟨hne, hle⟩, rfl⟩
        exact ⟨⟨hne, rfl⟩, by omega, by omega⟩
      · rintro ⟨⟨hne, rfl⟩, hle, -⟩
        exact ⟨⟨hne, by omega⟩, rfl⟩
  · next plain =>
      simp only [leading_plain_iff plain, Option.ite_none_left_eq_some, Bool.or_eq_true,
        List.isEmpty_iff, decide_eq_true_eq, not_or, Option.some.injEq]
      constructor
      · rintro ⟨⟨hne, hlt⟩, rfl⟩
        exact ⟨⟨hne, rfl⟩, by omega, by omega⟩
      · rintro ⟨⟨hne, rfl⟩, -, hlt⟩
        exact ⟨⟨hne, by omega⟩, rfl⟩

end Numeral
end Horizon
