import Introspect.Proofs.LetterCase

/-! Letter case in bytes. Only the bytes of ASCII letters have upper case forms, so that a name folds alike
character by character and byte by byte. A look-up in any letter case is one in an index by folded bytes. -/
namespace Introspect

namespace Naming

theorem utf8_ofList (chars : List Char) :
    utf8 (String.ofList chars) = chars.flatMap String.utf8EncodeChar := by
  rw [utf8, String.toUTF8_eq_toByteArray, String.toByteArray_ofList]
  exact List.toList_data_toByteArray

theorem utf8_inj {name name' : String} : utf8 name = utf8 name' ↔ name = name' := by
  unfold utf8
  rw [Array.toList_inj, ← ByteArray.ext_iff]
  exact String.toByteArray_inj

theorem upperByte_of_le {b : UInt8} (h : 128 ≤ b.toNat) : upperByte b = b := by
  refine if_neg fun hletter => ?_
  have hle : b.toNat ≤ 122 := UInt8.le_iff_toNat_le.1 hletter.2
  omega

/-- Beyond ASCII no byte of a character is that of a letter. -/
theorem le_of_mem_utf8EncodeChar {c : Char} (hc : 128 ≤ c.toNat) {b : UInt8}
    (h : b ∈ String.utf8EncodeChar c) : 128 ≤ b.toNat := by
  have hv : 128 ≤ c.val.toNat := hc
  have hbyte {n : Nat} (hn : 128 ≤ n % 256) : 128 ≤ (UInt8.ofNat n).toNat := by
    rwa [UInt8.toNat_ofNat']
  unfold String.utf8EncodeChar at h
  dsimp only at h
  split_ifs at h
  · omega
  all_goals
    simp only [List.mem_cons, List.not_mem_nil, or_false] at h
    rcases h with rfl | rfl | rfl | rfl
    all_goals exact hbyte (by omega)

theorem utf8EncodeChar_toUpper (c : Char) :
    String.utf8EncodeChar c.toUpper = upper (String.utf8EncodeChar c) := by
  by_cases hc : c.toNat < 128
  · have hall : ∀ n < 128, String.utf8EncodeChar (Char.ofNat n).toUpper =
        upper (String.utf8EncodeChar (Char.ofNat n)) := by decide +kernel
    have := hall c.toNat hc
    rwa [Char.ofNat_toNat] at this
  · have hle : 128 ≤ c.toNat := Nat.le_of_not_lt hc
    have hsame : c.toUpper = c := by
      refine dif_neg fun hletter => hc ?_
      have hz : c.toNat ≤ 122 := UInt32.le_iff_toNat_le.1 hletter.2
      omega
    have hbytes : (String.utf8EncodeChar c).map upperByte = (String.utf8EncodeChar c).map id :=
      List.map_congr_left fun b hb => upperByte_of_le (le_of_mem_utf8EncodeChar hle hb)
    rw [hsame, upper, hbytes, List.map_id]

theorem utf8_fold (name : String) : utf8 (fold name) = upper (utf8 name) := by
  rw [fold, utf8_ofList, List.flatMap_map]
  conv => rhs; rw [← String.ofList_toList (s := name), utf8_ofList]
  rw [upper, List.map_flatMap]
  exact List.flatMap_congr fun c _ => utf8EncodeChar_toUpper c

/-- Two names fold alike if their bytes do. -/
theorem fold_eq_fold_iff {name name' : String} :
    fold name = fold name' ↔ upper (utf8 name) = upper (utf8 name') := by
  rw [← utf8_fold, ← utf8_fold, utf8_inj]

end Naming

namespace Model

open Naming

/-- A property that can be read or written. -/
def HasProperty (m : Model) (n : String) : Prop := n ∈ m.readable.names ∨ n ∈ m.writable.names

variable {m : Model} {q : List UInt8} {n : String}

private theorem get?_foldl_enter (names : List String) (t : Table (List UInt8) String) (key : List UInt8) :
    (names.foldl (fun t n => t.insert (upper (utf8 n)) n) t).get? key =
      (names.reverse.find? (fun n => upper (utf8 n) = key)).or (t.get? key) := by
  induction names generalizing t with
  | nil => rfl
  | cons n rest ih =>
    rw [List.foldl_cons, ih, List.reverse_cons, List.find?_append, Option.or_assoc, Table.get?_insert]
    congr 1
    by_cases hn : upper (utf8 n) = key
    · simp [hn]
    · simp [hn, Ne.symm hn]

/-- The index finds the last name of its folded form. -/
theorem findBytes?_eq (m : Model) (q : List UInt8) :
    m.findBytes? q =
      (m.readable.names ++ m.writable.names).reverse.find? (fun n => upper (utf8 n) = upper q) := by
  unfold findBytes? caseIndex
  dsimp only
  rw [get?_foldl_enter, get?_foldl_enter, Table.get?_empty, Option.or_none, List.reverse_append,
    List.find?_append]

theorem find?_eq_findBytes? (m : Model) (name : String) : m.find? name = m.findBytes? (utf8 name) := by
  rw [findBytes?_eq]
  unfold find?
  simp only [fold_eq_fold_iff]

theorem isSome_findBytes?_iff :
    (m.findBytes? q).isSome ↔ ∃ n, m.HasProperty n ∧ upper (utf8 n) = upper q := by
  rw [findBytes?_eq, List.find?_isSome]
  simp only [List.mem_reverse, List.mem_append, decide_eq_true_eq]
  rfl

theorem hasProperty_of_findBytes? (h : m.findBytes? q = some n) :
    m.HasProperty n ∧ upper (utf8 n) = upper q := by
  rw [findBytes?_eq] at h
  have hm := List.mem_reverse.1 (List.mem_of_find?_eq_some h)
  have hfold := List.find?_some h
  exact ⟨List.mem_append.1 hm, of_decide_eq_true hfold⟩

/-- Looking up a name in any letter case is looking it up by its bytes, of which any can be given. A name is
found just if a property has the folded form, and it is such a property. What is found depends on the folded
form alone, and if no two properties share theirs, every spelling of a property finds it. -/
theorem find_in_any_case (m : Model) :
    (∀ name, m.find? name = m.findBytes? (utf8 name)) ∧
    ∀ q, ((m.findBytes? q).isSome ↔ ∃ n, m.HasProperty n ∧ upper (utf8 n) = upper q) ∧
      (∀ n, m.findBytes? q = some n → m.HasProperty n ∧ upper (utf8 n) = upper q) ∧
      (∀ q', upper q' = upper q → m.findBytes? q' = m.findBytes? q) ∧
      ((∀ n n', m.HasProperty n → m.HasProperty n' → upper (utf8 n) = upper (utf8 n') → n = n') →
        ∀ n, m.HasProperty n → upper q = upper (utf8 n) → m.findBytes? q = some n) := by
  refine ⟨find?_eq_findBytes? m, fun q => ⟨isSome_findBytes?_iff, fun n => hasProperty_of_findBytes?,
    fun q' hq => ?_, fun hunique n hn hq => ?_⟩⟩
  · unfold findBytes?
    rw [hq]
  · obtain ⟨n', hfound⟩ := Option.isSome_iff_exists.1 (isSome_findBytes?_iff.2 ⟨n, hn, hq.symm⟩)
    obtain ⟨hn', hfold⟩ := hasProperty_of_findBytes? hfound
    rw [hfound, hunique n' n hn' hn (hfold.trans hq)]

/-- An acronym that can be read, and a field with letters beyond ASCII. -/
def umlauts : List Schema.Operation := [
  .reopen Schema.baseClass {} "Base",
  .declare Schema.baseClass (.method { name := "getURL", result := some .string, body := .load "url" }),
  .declare Schema.baseClass (.field { name := "größe", type := .int, storage := .slot "size" })]

/-- Letters beyond ASCII are found as they are, and not in their upper case forms. -/
theorem find_in_any_case_umlauts : ∃ m, build (.run umlauts) Schema.baseClass {} = .ok m ∧
    m.readable.names = ["URL", "größe"] ∧ m.writable.names = ["größe"] ∧
    m.find? "Url" = some "URL" ∧ m.find? "GRößE" = some "größe" ∧ m.find? "GRÖßE" = none ∧
    m.findBytes? [255] = none := by
  obtain ⟨m, hm, hreadable, hwritable⟩ : ∃ m, build (.run umlauts) Schema.baseClass {} = .ok m ∧
      m.readable.names = ["URL", "größe"] ∧ m.writable.names = ["größe"] :=
    ⟨_, rfl, by decide +kernel, by decide +kernel⟩
  have hproperty (n : String) : m.HasProperty n ↔ n ∈ ["URL", "größe"] := by
    simp [HasProperty, hreadable, hwritable]
  obtain ⟨hstrings, hbytes⟩ := find_in_any_case m
  have hfound (n name : String) (hn : n ∈ ["URL", "größe"]) (heq : upper (utf8 name) = upper (utf8 n)) :
      m.find? name = some n := by
    rw [hstrings]
    refine (hbytes (utf8 name)).2.2.2 (fun n n' hn hn' => ?_) n ((hproperty n).2 hn) heq
    have hunique : ∀ n ∈ ["URL", "größe"], ∀ n' ∈ ["URL", "größe"],
        upper (utf8 n) = upper (utf8 n') → n = n' := by decide +kernel
    exact hunique n ((hproperty n).1 hn) n' ((hproperty n').1 hn')
  have hmissed (q : List UInt8) (hq : ∀ n ∈ ["URL", "größe"], upper (utf8 n) ≠ upper q) :
      m.findBytes? q = none := by
    refine Option.not_isSome_iff_eq_none.1 fun hsome => ?_
    obtain ⟨n, hn, heq⟩ := (hbytes q).1.1 hsome
    exact hq n ((hproperty n).1 hn) heq
  refine ⟨m, hm, hreadable, hwritable, ?_, ?_, ?_, ?_⟩
  · exact hfound "URL" "Url" (by decide) (by decide +kernel)
  · exact hfound "größe" "GRößE" (by decide) (by decide +kernel)
  · rw [hstrings]
    exact hmissed _ (by decide +kernel)
  · exact hmissed _ (by decide +kernel)

end Model
end Introspect
