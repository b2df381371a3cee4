import Introspect.Proofs.CaseFolding

/-! Which accessor names denote one property. The name of a property is read off bytes as it is off characters:
only ASCII letters change, and the second byte that is looked at is upper case just if the second character is. -/
namespace Introspect.Naming

/-- An upper case letter and its lower case form, in either order. -/
def DifferInCase (b c : UInt8) : Prop := (isUpperByte b ∧ c = b + 32) ∨ (isUpperByte c ∧ b = c + 32)

instance (b c : UInt8) : Decidable (DifferInCase b c) := inferInstanceAs (Decidable (_ ∨ _))

/-- Differ in nothing but the letter case of the first byte, and no upper case letter follows it. -/
def DifferAtStart (r s : List UInt8) : Prop :=
  ∃ b c rest, r = b :: rest ∧ s = c :: rest ∧ DifferInCase b c ∧ ∀ d ∈ rest.head?, ¬ isUpperByte d

section Bytes

variable {b c : UInt8}

theorem isUpperByte_iff : isUpperByte b ↔ 65 ≤ b.toNat ∧ b.toNat ≤ 90 := by
  simp only [isUpperByte, Bool.and_eq_true, decide_eq_true_eq, UInt8.le_iff_toNat_le]
  rfl

theorem toNat_lowerByte (b : UInt8) :
    (lowerByte b).toNat = if 65 ≤ b.toNat ∧ b.toNat ≤ 90 then b.toNat + 32 else b.toNat := by
  unfold lowerByte
  simp only [isUpperByte_iff]
  split_ifs with hb
  · have hsum : (b + 32).toNat = (b.toNat + 32) % 256 := UInt8.toNat_add b 32
    omega
  · rfl

/-- A lower case form is no upper case letter. -/
theorem lowerByte_lowerByte (b : UInt8) : lowerByte (lowerByte b) = lowerByte b := by
  have h := toNat_lowerByte b
  have h' := toNat_lowerByte (lowerByte b)
  apply UInt8.toNat_inj.1
  split_ifs at h h' <;> omega

theorem lowerByte_of_le (h : 128 ≤ b.toNat) : lowerByte b = b := by
  have hb := toNat_lowerByte b
  apply UInt8.toNat_inj.1
  split_ifs at hb <;> omega

theorem lowerByte_eq_lowerByte_iff : lowerByte b = lowerByte c ↔ b = c ∨ DifferInCase b c := by
  have hb := toNat_lowerByte b
  have hc := toNat_lowerByte c
  have hsum (d : UInt8) : (d + 32).toNat = (d.toNat + 32) % 256 := UInt8.toNat_add d 32
  have hb' := hsum b
  have hc' := hsum c
  simp only [DifferInCase, isUpperByte_iff, ← UInt8.toNat_inj, hb, hc, hb', hc']
  split_ifs <;> omega

end Bytes

section Characters

/-- The bytes of a list of characters. -/
def encode (chars : List Char) : List UInt8 := chars.flatMap String.utf8EncodeChar

variable {c : Char}

theorem encode_cons (c : Char) (chars : List Char) :
    encode (c :: chars) = String.utf8EncodeChar c ++ encode chars := List.flatMap_cons

theorem utf8EncodeChar_of_lt (hc : c.toNat < 128) :
    String.utf8EncodeChar c = [UInt8.ofNat c.toNat] ∧
      String.utf8EncodeChar c.toLower = [lowerByte (UInt8.ofNat c.toNat)] ∧
      isUpperByte (UInt8.ofNat c.toNat) = c.isUpper := by
  have hall : ∀ n < 128, String.utf8EncodeChar (Char.ofNat n) = [UInt8.ofNat n] ∧
      String.utf8EncodeChar (Char.ofNat n).toLower = [lowerByte (UInt8.ofNat n)] ∧
      isUpperByte (UInt8.ofNat n) = (Char.ofNat n).isUpper := by decide +kernel
  have := hall c.toNat hc
  rwa [Char.ofNat_toNat] at this

/-- Beyond ASCII a character begins with a byte that is no letter, and has no other letter case. -/
theorem utf8EncodeChar_of_le (hc : 128 ≤ c.toNat) :
    (∃ b bs, String.utf8EncodeChar c = b :: bs ∧ 128 ≤ b.toNat) ∧ c.toLower = c ∧ c.isUpper = false := by
  have hnoLetter : ¬ (c.val ≥ 'A'.val ∧ c.val ≤ 'Z'.val) := by
    intro hletter
    have hle : c.toNat ≤ 90 := UInt32.le_iff_toNat_le.1 hletter.2
    omega
  refine ⟨?_, dif_neg hnoLetter, decide_eq_false hnoLetter⟩
  cases hbytes : String.utf8EncodeChar c with
  | nil =>
    have hlength := String.length_utf8EncodeChar c
    have hpos := c.utf8Size_pos
    rw [hbytes, List.length_nil] at hlength
    omega
  | cons b bs =>
    have hb : b ∈ String.utf8EncodeChar c := by
      rw [hbytes]
      exact List.mem_cons_self
    exact ⟨b, bs, rfl, le_of_mem_utf8EncodeChar hc hb⟩

/-- An ASCII beginning is taken off the bytes just as it is taken off the characters. -/
theorem isPrefixOf?_encode {start : List Char} (hstart : ∀ c ∈ start, c.toNat < 128) (chars : List Char) :
    (encode start).isPrefixOf? (encode chars) = (start.isPrefixOf? chars).map encode := by
  induction start generalizing chars with
  | nil => rfl
  | cons c start ih =>
    have hc := hstart c List.mem_cons_self
    have hbyte := (utf8EncodeChar_of_lt hc).1
    have hrest := ih fun d hd => hstart d (List.mem_cons_of_mem c hd)
    cases chars with
    | nil =>
      rw [encode_cons, hbyte]
      rfl
    | cons d chars =>
      by_cases hd : d.toNat < 128
      · have hbyte' := (utf8EncodeChar_of_lt hd).1
        have hiff : UInt8.ofNat c.toNat = UInt8.ofNat d.toNat ↔ c = d := by
          rw [← UInt8.toNat_inj, UInt8.toNat_ofNat', UInt8.toNat_ofNat', ← Char.toNat_inj]
          omega
        rw [encode_cons, encode_cons, hbyte, hbyte']
        by_cases hcd : c = d
        · simp [List.isPrefixOf?, hcd, hrest]
        · simp [List.isPrefixOf?, hcd, hiff]
      · obtain ⟨⟨b, bs, hbytes, hb⟩, _⟩ := utf8EncodeChar_of_le (Nat.le_of_not_lt hd)
        have hne : UInt8.ofNat c.toNat ≠ b := by
          rintro rfl
          rw [UInt8.toNat_ofNat'] at hb
          omega
        have hcd : c ≠ d := by
          rintro rfl
          exact hd hc
        rw [encode_cons, encode_cons, hbyte, hbytes]
        simp [List.isPrefixOf?, hne, hcd]

theorem decapitalizeBytes_cons (b : UInt8) (rest : List UInt8) : decapitalizeBytes (b :: rest) =
    (if rest.head?.any isUpperByte then b else lowerByte b) :: rest := by
  cases rest with
  | nil => rfl
  | cons c rest =>
    rw [decapitalizeBytes, List.head?_cons, Option.any_some]
    split_ifs <;> rfl

theorem encode_decapitalize (chars : List Char) :
    encode (decapitalize chars) = decapitalizeBytes (encode chars) := by
  cases chars with
  | nil => rfl
  | cons c chars =>
    by_cases hc : c.toNat < 128
    · obtain ⟨hbyte, hlower, _⟩ := utf8EncodeChar_of_lt hc
      cases chars with
      | nil =>
        rw [decapitalize, encode_cons, encode_cons, hbyte, hlower]
        rfl
      | cons d chars =>
        -- what counts is the first byte of the second character
        obtain ⟨e, es, hbytes, hupper⟩ : ∃ e es, String.utf8EncodeChar d = e :: es ∧
            isUpperByte e = d.isUpper := by
          by_cases hd : d.toNat < 128
          · obtain ⟨hbyte', _, hupper⟩ := utf8EncodeChar_of_lt hd
            exact ⟨_, [], hbyte', hupper⟩
          · obtain ⟨⟨e, es, hbytes, he⟩, _, hupper⟩ := utf8EncodeChar_of_le (Nat.le_of_not_lt hd)
            refine ⟨e, es, hbytes, ?_⟩
            rw [hupper, Bool.eq_false_iff, ne_eq, isUpperByte_iff]
            omega
        rw [decapitalize, encode_cons c, encode_cons d, hbyte, hbytes, List.singleton_append,
          List.cons_append, decapitalizeBytes, hupper]
        split_ifs
        · rw [encode_cons, encode_cons, hbyte, hbytes]
          rfl
        · rw [encode_cons, encode_cons, hlower, hbytes]
          rfl
    · obtain ⟨⟨b, bs, hbytes, hb⟩, hlower, _⟩ := utf8EncodeChar_of_le (Nat.le_of_not_lt hc)
      have hsame : decapitalize (c :: chars) = c :: chars := by
        cases chars with
        | nil => rw [decapitalize, hlower]
        | cons d chars => rw [decapitalize, hlower, ite_self]
      rw [hsame, encode_cons, hbytes, List.cons_append, decapitalizeBytes_cons, lowerByte_of_le hb, ite_self]

theorem map_utf8_propertyOf? (name : String) :
    (propertyOf? name).map utf8 = propertyOfBytes? (utf8 name) := by
  have hutf8 (s : String) : utf8 s = encode s.toList := by
    conv => lhs; rw [← String.ofList_toList (s := s), utf8_ofList]
    rfl
  have hafter {start : String} (hstart : start.toList.all fun c => c.toNat < 128) :
      (utf8 start).isPrefixOf? (utf8 name) = (after? start name).map encode := by
    rw [hutf8, hutf8, isPrefixOf?_encode (by simpa using hstart)]
    rfl
  have hdecapitalize (rest : List Char) :
      utf8 (String.ofList (decapitalize rest)) = decapitalizeBytes (encode rest) := by
    rw [utf8_ofList]
    exact encode_decapitalize rest
  rw [propertyOfBytes?, hafter (by decide), hafter (by decide), hafter (by decide), propertyOf?,
    Option.map_map]
  cases after? "is" name <;> cases after? "get" name <;> cases after? "set" name <;>
    simp [hdecapitalize]

end Characters

section Names

variable {r s : List UInt8}

theorem decapitalizeBytes_ne_nil (h : r ≠ []) : decapitalizeBytes r ≠ [] := by
  cases r with
  | nil => exact absurd rfl h
  | cons b rest =>
    rw [decapitalizeBytes_cons]
    exact List.cons_ne_nil _ _

theorem decapitalizeBytes_decapitalizeBytes (r : List UInt8) :
    decapitalizeBytes (decapitalizeBytes r) = decapitalizeBytes r := by
  cases r with
  | nil => rfl
  | cons b rest =>
    rw [decapitalizeBytes_cons, decapitalizeBytes_cons]
    split_ifs
    · rfl
    · rw [lowerByte_lowerByte]

theorem differAtStart_cons_iff {b c : UInt8} {rest rest' : List UInt8} :
    DifferAtStart (b :: rest) (c :: rest') ↔
      rest = rest' ∧ DifferInCase b c ∧ ¬ rest.head?.any isUpperByte := by
  have hany : ¬ rest.head?.any isUpperByte ↔ ∀ d ∈ rest.head?, ¬ isUpperByte d := by
    cases rest.head? <;> simp
  rw [hany]
  constructor
  · rintro ⟨_, _, _, hr, hs, hcase, hnext⟩
    cases hr
    cases hs
    exact ⟨rfl, hcase, hnext⟩
  · rintro ⟨rfl, hcase, hnext⟩
    exact ⟨b, c, rest, rfl, rfl, hcase, hnext⟩

/-- What follows the first byte is kept, and tells whether the first byte is lowered. -/
theorem decapitalizeBytes_eq_iff :
    decapitalizeBytes r = decapitalizeBytes s ↔ r = s ∨ DifferAtStart r s := by
  cases r with
  | nil =>
    have hstart : ¬ DifferAtStart [] s := fun ⟨_, _, _, hr, _⟩ => nomatch hr
    rw [or_iff_left hstart]
    constructor
    · intro h
      by_contra hne
      exact decapitalizeBytes_ne_nil (Ne.symm hne) h.symm
    · rintro rfl
      rfl
  | cons b rest =>
    cases s with
    | nil =>
      have hstart : ¬ DifferAtStart (b :: rest) [] := fun ⟨_, _, _, _, hs, _⟩ => nomatch hs
      rw [or_iff_left hstart, decapitalizeBytes_cons]
      exact ⟨nofun, nofun⟩
    | cons c rest' =>
      rw [decapitalizeBytes_cons, decapitalizeBytes_cons, List.cons.injEq, List.cons.injEq,
        differAtStart_cons_iff]
      by_cases hrest : rest = rest'
      · subst hrest
        by_cases hupper : rest.head?.any isUpperByte
        · simp [hupper]
        · simp [hupper, lowerByte_eq_lowerByte_iff]
      · simp [hrest]

theorem propertyOfBytes?_append {p : String} (hp : p ∈ ["get", "is", "set"]) (r : List UInt8) :
    propertyOfBytes? (utf8 p ++ r) = some (decapitalizeBytes r) := by
  have hget : utf8 "get" = [103, 101, 116] := by decide
  have his : utf8 "is" = [105, 115] := by decide
  have hset : utf8 "set" = [115, 101, 116] := by decide
  rw [propertyOfBytes?, hget, his, hset]
  simp only [List.mem_cons, List.not_mem_nil, or_false] at hp
  rcases hp with rfl | rfl | rfl
  · rw [hget]
    rfl
  · rw [his]
    rfl
  · rw [hset]
    rfl

theorem exists_decapitalizeBytes_of_propertyOfBytes? {name n : List UInt8}
    (h : propertyOfBytes? name = some n) : ∃ r, n = decapitalizeBytes r := by
  obtain ⟨r, _, hr⟩ := Option.map_eq_some_iff.1 h
  exact ⟨r, hr.symm⟩

/-- A name denotes the property that its bytes denote, and any bytes can be given. Whichever of the three
beginnings they have, two names denote one property just if they go on alike, or differ in the letter case of
the next byte alone and have no upper case letter after it. With `get` before it, the name of a property
denotes that property. -/
theorem accessor_names_meet :
    (∀ name, (propertyOf? name).map utf8 = propertyOfBytes? (utf8 name)) ∧
    (∀ p ∈ ["get", "is", "set"], ∀ q ∈ ["get", "is", "set"], ∀ r s : List UInt8, r ≠ [] → s ≠ [] →
      ∃ m n, propertyOfBytes? (utf8 p ++ r) = some m ∧ propertyOfBytes? (utf8 q ++ s) = some n ∧
        m ≠ [] ∧ n ≠ [] ∧ (m = n ↔ r = s ∨ DifferAtStart r s)) ∧
    ∀ name n, propertyOfBytes? name = some n → propertyOfBytes? (utf8 "get" ++ n) = some n := by
  refine ⟨map_utf8_propertyOf?, ?_, ?_⟩
  · intro p hp q hq r s hr hs
    exact ⟨_, _, propertyOfBytes?_append hp r, propertyOfBytes?_append hq s, decapitalizeBytes_ne_nil hr,
      decapitalizeBytes_ne_nil hs, decapitalizeBytes_eq_iff⟩
  · intro name n h
    obtain ⟨r, rfl⟩ := exists_decapitalizeBytes_of_propertyOfBytes? h
    rw [propertyOfBytes?_append (by decide), decapitalizeBytes_decapitalizeBytes]

/-- An acronym is kept apart, and so are two bytes that are no letters but differ as letters do. -/
theorem accessor_names_meet_acronym :
    (∃ n, propertyOfBytes? (utf8 "isName") = some n ∧ propertyOfBytes? (utf8 "setname") = some n ∧
      propertyOfBytes? (utf8 "get" ++ n) = some n) ∧
    propertyOfBytes? (utf8 "getURL") ≠ propertyOfBytes? (utf8 "setuRL") ∧
    propertyOfBytes? (utf8 "get" ++ [223, 97]) ≠ propertyOfBytes? (utf8 "get" ++ [255, 97]) := by
  obtain ⟨_, hmeet, hfixed⟩ := accessor_names_meet
  have apart {p q : String} {r s : List UInt8} (hp : p ∈ ["get", "is", "set"])
      (hq : q ∈ ["get", "is", "set"]) (hr : r ≠ []) (hs : s ≠ []) (hne : ¬ (r = s ∨ DifferAtStart r s)) :
      propertyOfBytes? (utf8 p ++ r) ≠ propertyOfBytes? (utf8 q ++ s) := by
    obtain ⟨m, n, hm, hn, _, _, hiff⟩ := hmeet p hp q hq r s hr hs
    rw [hm, hn]
    exact fun heq => hne (hiff.1 (Option.some.inj heq))
  refine ⟨?_, ?_, ?_⟩
  · have hstart : DifferAtStart (utf8 "Name") (utf8 "name") := by
      refine ⟨78, 110, utf8 "ame", by decide, by decide, by decide, ?_⟩
      rintro d ⟨rfl⟩
      decide
    obtain ⟨m, n, hm, hn, _, _, hiff⟩ :=
      hmeet "is" (by decide) "set" (by decide) (utf8 "Name") (utf8 "name") (by decide) (by decide)
    obtain rfl := hiff.2 (Or.inr hstart)
    exact ⟨m, hm, hn, hfixed _ m hm⟩
  · refine apart (p := "get") (q := "set") (r := utf8 "URL") (s := utf8 "uRL") (by decide) (by decide)
      (by decide) (by decide) ?_
    rintro (heq | hstart)
    · exact absurd heq (by decide)
    · exact absurd (differAtStart_cons_iff.1 hstart).2.2 (by decide)
  · refine apart (by decide) (by decide) (by decide) (by decide) ?_
    rw [differAtStart_cons_iff]
    decide

end Names

end Introspect.Naming
