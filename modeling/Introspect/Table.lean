/-! Ordered tables. A key keeps the place at which it was first inserted, and a second insertion
replaces its value there. -/
namespace Introspect

structure Table (α β : Type) where
  entries : List (α × β) := []

namespace Table

variable {α β : Type}

instance : EmptyCollection (Table α β) := ⟨⟨[]⟩⟩

def keys (t : Table α β) : List α := t.entries.map Prod.fst

def values (t : Table α β) : List β := t.entries.map Prod.snd

def size (t : Table α β) : Nat := t.entries.length

@[simp] theorem keys_empty : (∅ : Table α β).keys = [] := rfl

variable [DecidableEq α]

def findEntry (k : α) : List (α × β) → Option β
  | [] => none
  | (k', v) :: rest => if k' = k then some v else findEntry k rest

def putEntry (k : α) (v : β) : List (α × β) → List (α × β)
  | [] => [(k, v)]
  | (k', v') :: rest => if k' = k then (k, v) :: rest else (k', v') :: putEntry k v rest

def get? (t : Table α β) (k : α) : Option β := findEntry k t.entries

def contains (t : Table α β) (k : α) : Bool := (t.get? k).isSome

def insert (t : Table α β) (k : α) (v : β) : Table α β := ⟨putEntry k v t.entries⟩

/-- A key that is present keeps its value. -/
def insertIfNew (t : Table α β) (k : α) (v : β) : Table α β :=
  if t.contains k then t else t.insert k v

def erase (t : Table α β) (k : α) : Table α β := ⟨t.entries.filter (fun e => e.1 ≠ k)⟩

/-- Changes the value of a key that is present and nothing else. -/
def modify (t : Table α β) (k : α) (f : β → β) : Table α β :=
  match t.get? k with
  | some v => t.insert k (f v)
  | none => t

@[simp] theorem get?_empty (k : α) : (∅ : Table α β).get? k = none := rfl

@[simp] theorem get?_insert_self (t : Table α β) (k : α) (v : β) :
    (t.insert k v).get? k = some v := by
  simp only [get?, insert]
  induction t.entries with
  | nil => simp [putEntry, findEntry]
  | cons e rest ih =>
    by_cases h : e.1 = k
    · simp [putEntry, findEntry, h]
    · simpa [putEntry, findEntry, h] using ih

theorem get?_insert_of_ne (t : Table α β) {k k' : α} (v : β) (h : k' ≠ k) :
    (t.insert k v).get? k' = t.get? k' := by
  simp only [get?, insert]
  induction t.entries with
  | nil => simp [putEntry, findEntry, h.symm]
  | cons e rest ih =>
    by_cases he : e.1 = k
    · simp [putEntry, findEntry, he, h.symm]
    · by_cases he' : e.1 = k'
      · simp [putEntry, findEntry, he', h]
      · simpa [putEntry, findEntry, he, he'] using ih

theorem get?_insert (t : Table α β) (k k' : α) (v : β) :
    (t.insert k v).get? k' = if k' = k then some v else t.get? k' := by
  by_cases h : k' = k
  · simp [h]
  · simp [h, get?_insert_of_ne]

theorem get?_erase (t : Table α β) (k k' : α) :
    (t.erase k).get? k' = if k' = k then none else t.get? k' := by
  simp only [get?, erase]
  induction t.entries with
  | nil => simp [findEntry]
  | cons e rest ih =>
    by_cases he : e.1 = k
    · by_cases hk : k' = k
      · simpa [he, hk, findEntry] using ih
      · have : ¬ k = k' := fun h => hk h.symm
        simpa [he, hk, this, findEntry] using ih
    · by_cases hk' : e.1 = k'
      · have : ¬ k' = k := hk' ▸ he
        simp [hk', this, findEntry]
      · simpa [he, hk', findEntry] using ih

theorem get?_modify (t : Table α β) (k k' : α) (f : β → β) :
    (t.modify k f).get? k' = if k' = k then (t.get? k).map f else t.get? k' := by
  unfold modify
  cases h : t.get? k with
  | none =>
    by_cases hk : k' = k
    · simp [hk, h]
    · simp [hk]
  | some v => rw [get?_insert]; rfl

theorem mem_keys_iff (t : Table α β) (k : α) : k ∈ t.keys ↔ t.contains k = true := by
  simp only [keys, contains, get?]
  induction t.entries with
  | nil => simp [findEntry]
  | cons e rest ih =>
    by_cases h : e.1 = k
    · simp [findEntry, h]
    · have : ¬ k = e.1 := fun h' => h h'.symm
      simpa [findEntry, h, this] using ih

/-- A new key is listed last, and a known one keeps its place. -/
theorem keys_insert (t : Table α β) (k : α) (v : β) :
    (t.insert k v).keys = if k ∈ t.keys then t.keys else t.keys ++ [k] := by
  obtain ⟨entries⟩ := t
  simp only [keys, insert]
  induction entries with
  | nil => simp [putEntry]
  | cons e rest ih =>
    by_cases h : e.1 = k
    · simp [putEntry, h]
    · have : ¬ k = e.1 := fun h' => h h'.symm
      by_cases hr : k ∈ rest.map Prod.fst <;>
        simp only [putEntry, h, if_false, List.map_cons, ih, List.mem_cons, this, false_or, hr,
          if_true, List.cons_append]

theorem mem_entries_of_get? {t : Table α β} {k : α} {v : β} (h : t.get? k = some v) :
    (k, v) ∈ t.entries := by
  obtain ⟨entries⟩ := t
  simp only [get?] at *
  induction entries with
  | nil => cases h
  | cons e rest ih =>
    obtain ⟨k', v'⟩ := e
    by_cases hk : k' = k <;> simp_all [findEntry]

/-- Where no key is listed twice, every entry can be looked up. -/
theorem get?_of_mem_entries {t : Table α β} (h : t.keys.Nodup) {k : α} {v : β}
    (hm : (k, v) ∈ t.entries) : t.get? k = some v := by
  obtain ⟨entries⟩ := t
  simp only [get?, keys] at *
  induction entries with
  | nil => simp at hm
  | cons e rest ih =>
    obtain ⟨k', v'⟩ := e
    obtain ⟨hk', hrest⟩ := List.nodup_cons.1 h
    rcases List.mem_cons.1 hm with heq | hm
    · cases heq
      simp [findEntry]
    · have hne : k' ≠ k := fun heq => hk' (heq ▸ List.mem_map.2 ⟨(k, v), hm, rfl⟩)
      simpa [findEntry, hne] using ih hrest hm

theorem nodup_keys_insert {t : Table α β} (h : t.keys.Nodup) (k : α) (v : β) :
    (t.insert k v).keys.Nodup := by
  rw [keys_insert]
  split
  · exact h
  · exact List.nodup_append.2 ⟨h, by simp, by grind⟩

@[simp] theorem keys_modify (t : Table α β) (k : α) (f : β → β) : (t.modify k f).keys = t.keys := by
  unfold modify
  cases h : t.get? k with
  | none => rfl
  | some v => exact (keys_insert t k _).trans (if_pos ((mem_keys_iff t k).2 (by simp [contains, h])))

theorem nodup_keys_erase {t : Table α β} (h : t.keys.Nodup) (k : α) : (t.erase k).keys.Nodup :=
  h.sublist (List.filter_sublist.map Prod.fst)

theorem contains_insert (t : Table α β) (k k' : α) (v : β) :
    (t.insert k v).contains k' = (k' = k || t.contains k') := by
  by_cases h : k' = k <;> simp [contains, get?_insert, h]

/-- A key is written over and over as if only the last value had been written. -/
@[simp] theorem insert_insert (t : Table α β) (k : α) (v w : β) :
    (t.insert k v).insert k w = t.insert k w := by
  obtain ⟨entries⟩ := t
  simp only [insert, mk.injEq]
  induction entries with
  | nil => simp [putEntry]
  | cons e rest ih =>
    by_cases h : e.1 = k
    · simp [putEntry, h]
    · simpa [putEntry, h] using ih

@[simp] theorem modify_insert (t : Table α β) (k : α) (v : β) (f : β → β) :
    (t.insert k v).modify k f = t.insert k (f v) := by
  simp [modify]

/-- Writing down what is there already changes nothing. -/
theorem insert_of_get? {t : Table α β} {k : α} {v : β} (h : t.get? k = some v) : t.insert k v = t := by
  obtain ⟨entries⟩ := t
  simp only [get?, insert, mk.injEq] at *
  induction entries with
  | nil => cases h
  | cons e rest ih =>
    obtain ⟨k', v'⟩ := e
    by_cases hk : k' = k
    · simp_all [putEntry, findEntry]
    · simp_all [putEntry, findEntry]

theorem modify_id (t : Table α β) (k : α) : t.modify k (fun v => v) = t := by
  unfold modify
  cases h : t.get? k with
  | none => rfl
  | some v => exact insert_of_get? h

/-- Inserting every entry of a list whose keys are all different. -/
theorem get?_foldl_insert {γ : Type} (f : α → γ → β) (entries : List (α × γ)) (t : Table α β)
    (h : (entries.map Prod.fst).Nodup) (k : α) :
    (entries.foldl (fun t e => t.insert e.1 (f e.1 e.2)) t).get? k =
      ((findEntry k entries).map (f k)).or (t.get? k) := by
  induction entries generalizing t with
  | nil => rfl
  | cons e rest ih =>
    obtain ⟨k', v⟩ := e
    obtain ⟨hk', hrest⟩ := List.nodup_cons.1 h
    rw [List.foldl_cons, ih _ hrest, get?_insert]
    by_cases hk : k' = k
    · subst hk
      have hnone : findEntry k' rest = none := by
        have := mt (mem_keys_iff ⟨rest⟩ k').2 hk'
        simpa [contains, get?] using this
      simp [findEntry, hnone]
    · simp [findEntry, hk, Ne.symm hk]

end Table
end Introspect
