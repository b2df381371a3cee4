import Introspect.Fingerprint
import Mathlib.Data.List.Basic
import Mathlib.Logic.Function.Basic

/-! What fingerprints keep apart. Each byte permutes the words it is mixed into, and two bytes take no word to
the same one, so that strings that differ in one byte never meet again. -/
namespace Introspect.Fingerprint

/-- Multiplication by it undoes multiplication by the prime. -/
def primeInverse : UInt64 := 14886173955864302971

/-- The word that a byte was mixed into. -/
def unstep (h : UInt64) (b : UInt8) : UInt64 := (h * primeInverse) ^^^ signExtend b

theorem mul_prime_mul_inverse (h : UInt64) : h * prime * primeInverse = h := by
  have hinverse : prime * primeInverse = 1 := by decide
  rw [UInt64.mul_assoc, hinverse, UInt64.mul_one]

theorem mul_inverse_mul_prime (h : UInt64) : h * primeInverse * prime = h := by
  have hinverse : primeInverse * prime = 1 := by decide
  rw [UInt64.mul_assoc, hinverse, UInt64.mul_one]

theorem unstep_step (h : UInt64) (b : UInt8) : unstep (step h b) b = h := by
  rw [unstep, step, mul_prime_mul_inverse, UInt64.xor_assoc, UInt64.xor_self, UInt64.xor_zero]

theorem step_unstep (h : UInt64) (b : UInt8) : step (unstep h b) b = h := by
  rw [unstep, step, UInt64.xor_assoc, UInt64.xor_self, UInt64.xor_zero, mul_inverse_mul_prime]

/-- A byte permutes the words. -/
theorem step_bijective (b : UInt8) : Function.Bijective (step · b) :=
  Function.bijective_iff_has_inverse.2
    ⟨(unstep · b), fun h => unstep_step h b, fun h => step_unstep h b⟩

/-- The sign only fills the upper bits, and the lower ones are those of the byte. -/
theorem signExtend_injective : Function.Injective signExtend := by
  have hlow (b : UInt8) : (signExtend b).toInt64.toInt8.toUInt8 = b := by
    have hword : (signExtend b).toInt64 = b.toInt8.toInt64 := rfl
    have hbyte : b.toInt8.toUInt8 = b := rfl
    rw [hword, Int8.toInt8_toInt64, hbyte]
  intro b c h
  rw [← hlow b, h, hlow c]

/-- Different bytes take a word to different ones. -/
theorem step_injective (h : UInt64) : Function.Injective (step h) := by
  intro b c hstep
  have hxor : h ^^^ signExtend b = h ^^^ signExtend c := by
    rw [← mul_prime_mul_inverse (h ^^^ signExtend b), ← mul_prime_mul_inverse (h ^^^ signExtend c)]
    exact congrArg (· * primeInverse) hstep
  exact signExtend_injective ((UInt64.xor_right_inj h).1 hxor)

/-- A string permutes the words byte by byte. -/
theorem foldl_step_bijective (t : List UInt8) : Function.Bijective (fun h => t.foldl step h) := by
  induction t with
  | nil => exact Function.bijective_id
  | cons b rest ih => exact ih.comp (step_bijective b)

/-- Strings that differ in one place share what is before it and what is after it. -/
theorem exists_split_of_differ_once {a b : List UInt8} (hlength : a.length = b.length)
    (h : ∃! i : Nat, a[i]? ≠ b[i]?) : ∃ p t x y, x ≠ y ∧ a = p ++ x :: t ∧ b = p ++ y :: t := by
  obtain ⟨i, hi, honly⟩ := h
  have hsame (j : Nat) (hj : j ≠ i) : a[j]? = b[j]? := by
    by_contra hne
    exact hj (honly j hne)
  have ha : i < a.length := by
    by_contra hle
    rw [List.getElem?_eq_none (by omega), List.getElem?_eq_none (by omega)] at hi
    exact hi rfl
  have hb : i < b.length := by omega
  have hbefore : a.take i = b.take i := by
    apply List.ext_getElem?
    intro j
    rw [List.getElem?_take, List.getElem?_take]
    split_ifs with hj
    · exact hsame j (by omega)
    · rfl
  have hafter : a.drop (i + 1) = b.drop (i + 1) := by
    apply List.ext_getElem?
    intro j
    rw [List.getElem?_drop, List.getElem?_drop]
    exact hsame (i + 1 + j) (by omega)
  refine ⟨a.take i, a.drop (i + 1), a[i], b[i], ?_, ?_, ?_⟩
  · rw [List.getElem?_eq_getElem ha, List.getElem?_eq_getElem hb] at hi
    exact fun heq => hi (congrArg some heq)
  · rw [← List.drop_eq_getElem_cons ha, List.take_append_drop]
  · rw [hbefore, hafter, ← List.drop_eq_getElem_cons hb, List.take_append_drop]

/-- Strings of one length that differ in just one place have different fingerprints, whatever the place and
whatever stands around it. What is appended to two strings neither joins nor parts their fingerprints. -/
theorem ofBytes_separates :
    (∀ a b : List UInt8, a.length = b.length → (∃! i : Nat, a[i]? ≠ b[i]?) → ofBytes a ≠ ofBytes b) ∧
    ∀ a b t : List UInt8, ofBytes (a ++ t) = ofBytes (b ++ t) ↔ ofBytes a = ofBytes b := by
  have happend (a b t : List UInt8) : ofBytes (a ++ t) = ofBytes (b ++ t) ↔ ofBytes a = ofBytes b := by
    rw [ofBytes_append, ofBytes_append]
    exact (foldl_step_bijective t).injective.eq_iff
  refine ⟨?_, happend⟩
  intro a b hlength honce heq
  obtain ⟨p, t, x, y, hne, rfl, rfl⟩ := exists_split_of_differ_once hlength honce
  have hmixed : ofBytes (p ++ [x]) = ofBytes (p ++ [y]) := by
    rw [← happend _ _ t]
    simpa using heq
  rw [ofBytes_append, ofBytes_append] at hmixed
  exact hne (step_injective (ofBytes p) hmixed)

/-- A byte whose sign fills the upper bits, amid others of its kind. -/
theorem ofBytes_separates_signed :
    ofBytes [195, 128, 97, 255] ≠ ofBytes [195, 0, 97, 255] ∧
      (ofBytes [128, 97] = ofBytes [0, 97] ↔ ofBytes [128] = ofBytes [0]) := by
  have honce : ∃! i : Nat, ([195, 128, 97, 255] : List UInt8)[i]? ≠ ([195, 0, 97, 255] : List UInt8)[i]? := by
    refine ⟨1, by decide, ?_⟩
    intro j hj
    match j with
    | 0 => exact absurd rfl hj
    | 1 => rfl
    | 2 => exact absurd rfl hj
    | 3 => exact absurd rfl hj
    | j + 4 => exact absurd rfl hj
  exact ⟨ofBytes_separates.1 _ _ rfl honce, ofBytes_separates.2 [128] [0] [97]⟩

end Introspect.Fingerprint
