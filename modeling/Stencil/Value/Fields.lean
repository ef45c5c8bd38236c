/-!
# Ordered fields

The fields of a mapping are a list of keys with values, in the order in which the keys arrived.
Writing to a key that is present leaves it where it is, a new key goes to the end, and taking a
field out moves the last field into its place.

* `get?_insert_self`, `get?_insert_of_ne`: a written value is found, and no other field changes.
* `keys_insert_of_mem`, `keys_insert_of_notMem`: what writing does to the order of the keys.
* `erase_perm`, `get?_erase_of_ne`: taking a field out loses it and no other.
* `ofEntries_spec`, `ofEntries_of_nodup`: entries make fields with distinct keys, and they are the
  fields as they stand if their own keys are distinct.
-/

namespace Stencil

/-- Keys with values, in order. -/
abbrev Fields (α : Type) := List (String × α)

namespace Fields

variable {α : Type}

/-- The keys, in order. -/
def keys (fields : Fields α) : List String :=
  fields.map (·.1)

/-- The value of a key. -/
def get? (key : String) : Fields α → Option α
  | [] => none
  | (k, v) :: rest => if k = key then some v else get? key rest

/-- The fields with the value at a key that is present replaced by its image. -/
def modify (key : String) (f : α → α) : Fields α → Fields α
  | [] => []
  | (k, v) :: rest => if k = key then (k, f v) :: rest else (k, v) :: modify key f rest

/-- The fields after a value is written to a key. -/
def insert (key : String) (value : α) : Fields α → Fields α
  | [] => [(key, value)]
  | (k, v) :: rest => if k = key then (k, value) :: rest else (k, v) :: insert key value rest

/-- The fields without the field of a key; the last field takes its place. -/
def erase (key : String) : Fields α → Fields α
  | [] => []
  | (k, v) :: rest =>
    if k = key then
      match rest.getLast? with
      | some last => last :: rest.dropLast
      | none => []
    else (k, v) :: erase key rest

/-- The fields written one after another into an empty list, so that a repeated key keeps its
first place and takes its last value. -/
def ofEntries (entries : List (String × α)) : Fields α :=
  entries.foldl (fun fields (k, v) => fields.insert k v) []

/-! ## What each operation does to look-up and to the order of the keys -/

@[simp] theorem get?_nil (key : String) : get? key ([] : Fields α) = none := rfl

@[simp] theorem keys_nil : keys ([] : Fields α) = [] := rfl

@[simp] theorem keys_cons (field : String × α) (rest : Fields α) :
    keys (field :: rest) = field.1 :: keys rest := rfl

theorem get?_isSome_iff {key : String} {fields : Fields α} :
    (get? key fields).isSome ↔ key ∈ keys fields := by
  induction fields with
  | nil => simp
  | cons field rest ih =>
    obtain ⟨k, v⟩ := field
    rw [get?]
    split
    · simp_all
    · rename_i hk
      simp [ih, Ne.symm hk]

theorem get?_eq_none_iff {key : String} {fields : Fields α} :
    get? key fields = none ↔ key ∉ keys fields := by
  rw [← get?_isSome_iff]
  cases get? key fields <;> simp

theorem mem_of_get? {key : String} {value : α} {fields : Fields α}
    (h : get? key fields = some value) : (key, value) ∈ fields := by
  induction fields with
  | nil => cases h
  | cons field rest ih =>
    obtain ⟨k, v⟩ := field
    rw [get?] at h
    split at h
    · rename_i hk
      obtain rfl : v = value := by simpa using h
      exact hk ▸ List.mem_cons_self
    · exact List.mem_cons_of_mem _ (ih h)

theorem get?_of_mem {key : String} {value : α} {fields : Fields α} (hkeys : (keys fields).Nodup)
    (h : (key, value) ∈ fields) : get? key fields = some value := by
  induction fields with
  | nil => cases h
  | cons field rest ih =>
    rw [keys_cons, List.nodup_cons] at hkeys
    rcases List.mem_cons.1 h with rfl | hrest
    · simp [get?]
    · have hne : field.1 ≠ key := fun hk =>
        hkeys.1 (hk ▸ List.mem_map_of_mem (f := Prod.fst) hrest)
      rw [get?, if_neg hne, ih hkeys.2 hrest]

/-- Look-up in fields behind others finds the first field with the key. -/
theorem get?_append (key : String) (fields more : Fields α) :
    get? key (fields ++ more) = (get? key fields).or (get? key more) := by
  induction fields with
  | nil => simp
  | cons field rest ih =>
    rw [List.cons_append, get?, get?]
    split
    · simp
    · exact ih

/-- Fields with distinct keys are looked up alike in every order. -/
theorem get?_perm {fields fields' : Fields α} (hkeys : (keys fields).Nodup)
    (h : fields'.Perm fields) (key : String) : get? key fields' = get? key fields := by
  have hkeys' : (keys fields').Nodup := (h.map Prod.fst).nodup_iff.2 hkeys
  refine Option.ext fun value => ⟨fun hvalue => ?_, fun hvalue => ?_⟩
  · exact get?_of_mem hkeys (h.subset (mem_of_get? hvalue))
  · exact get?_of_mem hkeys' (h.symm.subset (mem_of_get? hvalue))

theorem get?_insert_self (key : String) (value : α) (fields : Fields α) :
    get? key (insert key value fields) = some value := by
  induction fields with
  | nil => simp [insert, get?]
  | cons field rest ih =>
    simp only [insert]
    split <;> simp_all [get?]

theorem get?_insert_of_ne {key other : String} (h : other ≠ key) (value : α) (fields : Fields α) :
    get? other (insert key value fields) = get? other fields := by
  induction fields with
  | nil => simp [insert, get?, Ne.symm h]
  | cons field rest ih =>
    simp only [insert]
    split
    · rename_i hk
      simp [get?, hk, Ne.symm h]
    · simp [get?, ih]

theorem keys_insert_of_mem {key : String} {fields : Fields α} (h : key ∈ keys fields) (value : α) :
    keys (insert key value fields) = keys fields := by
  induction fields with
  | nil => simp at h
  | cons field rest ih =>
    simp only [insert]
    split
    · rfl
    · rename_i hk
      simp only [keys_cons, List.mem_cons] at h ⊢
      rw [ih (h.resolve_left fun e => hk e.symm)]

theorem keys_insert_of_notMem {key : String} {fields : Fields α} (h : key ∉ keys fields)
    (value : α) : keys (insert key value fields) = keys fields ++ [key] := by
  induction fields with
  | nil => rfl
  | cons field rest ih =>
    simp only [keys_cons, List.mem_cons, not_or] at h
    simp [insert, Ne.symm h.1, ih h.2]

theorem insert_of_notMem {key : String} {fields : Fields α} (h : key ∉ keys fields) (value : α) :
    insert key value fields = fields ++ [(key, value)] := by
  induction fields with
  | nil => rfl
  | cons field rest ih =>
    simp only [keys_cons, List.mem_cons, not_or] at h
    simp [insert, Ne.symm h.1, ih h.2]

theorem nodup_keys_insert {fields : Fields α} (h : (keys fields).Nodup) (key : String)
    (value : α) : (keys (insert key value fields)).Nodup := by
  by_cases hkey : key ∈ keys fields
  · rwa [keys_insert_of_mem hkey]
  · rw [keys_insert_of_notMem hkey, List.nodup_append]
    refine ⟨h, by simp, fun other hother new hnew => ?_⟩
    obtain rfl := List.mem_singleton.1 hnew
    exact fun heq => hkey (heq ▸ hother)

/-- Entries with distinct keys are fields as they stand. -/
theorem ofEntries_of_nodup {entries : List (String × α)} (h : (keys entries).Nodup) :
    ofEntries entries = entries := by
  have hfold : ∀ done rest : Fields α, (keys (done ++ rest)).Nodup →
      rest.foldl (fun fields entry => fields.insert entry.1 entry.2) done = done ++ rest := by
    intro done rest hkeys
    induction rest generalizing done with
    | nil => simp
    | cons field rest ih =>
      have hnew : field.1 ∉ keys done := by
        have hdistinct := hkeys
        simp only [keys, List.map_append, List.map_cons, List.nodup_append] at hdistinct
        exact fun hmem => hdistinct.2.2 field.1 hmem field.1 List.mem_cons_self rfl
      rw [List.foldl_cons, insert_of_notMem hnew, ih _ (by simpa using hkeys), List.append_assoc,
        List.singleton_append]
  exact hfold [] entries h

theorem mem_of_mem_insert {key : String} {value : α} {fields : Fields α} {field : String × α}
    (h : field ∈ insert key value fields) : field = (key, value) ∨ field ∈ fields := by
  induction fields with
  | nil => simpa [insert] using h
  | cons first rest ih =>
    obtain ⟨k, v⟩ := first
    rw [insert] at h
    split at h
    · rename_i hk
      subst hk
      exact (List.mem_cons.1 h).imp_right (List.mem_cons_of_mem _)
    · rcases List.mem_cons.1 h with rfl | h
      · exact .inr List.mem_cons_self
      · exact (ih h).imp_right (List.mem_cons_of_mem _)

/-- Fields that are written one after another have distinct keys, and each of them is written. -/
theorem ofEntries_spec (entries : List (String × α)) :
    (keys (ofEntries entries)).Nodup ∧ ∀ field ∈ ofEntries entries, field ∈ entries := by
  refine List.foldlRecOn (motive := fun fields => (keys fields).Nodup ∧ ∀ field ∈ fields,
    field ∈ entries) entries _ ⟨List.nodup_nil, fun field hfield => nomatch hfield⟩ ?_
  rintro fields ⟨hkeys, hmem⟩ entry hentry
  refine ⟨nodup_keys_insert hkeys entry.1 entry.2, fun field hfield => ?_⟩
  rcases mem_of_mem_insert hfield with rfl | hfield
  · exact hentry
  · exact hmem field hfield

theorem keys_modify (key : String) (f : α → α) (fields : Fields α) :
    keys (modify key f fields) = keys fields := by
  induction fields with
  | nil => rfl
  | cons field rest ih =>
    simp only [modify]
    split <;> simp [ih]

theorem get?_modify_self (key : String) (f : α → α) (fields : Fields α) :
    get? key (modify key f fields) = (get? key fields).map f := by
  induction fields with
  | nil => rfl
  | cons field rest ih =>
    simp only [modify]
    split <;> simp_all [get?]

theorem get?_modify_of_ne {key other : String} (h : other ≠ key) (f : α → α) (fields : Fields α) :
    get? other (modify key f fields) = get? other fields := by
  induction fields with
  | nil => rfl
  | cons field rest ih =>
    simp only [modify]
    split
    · rename_i hk
      simp [get?, hk, Ne.symm h]
    · simp [get?, ih]

/-- A value that is its own image is left as it is. -/
theorem modify_of_get? {key : String} {value : α} {fields : Fields α}
    (h : get? key fields = some value) : modify key (fun _ => value) fields = fields := by
  induction fields with
  | nil => rfl
  | cons field rest ih =>
    obtain ⟨k, v⟩ := field
    rw [get?] at h
    rw [modify]
    split at h
    · rename_i hk
      obtain rfl := Option.some.inj h
      rw [if_pos hk]
    · rename_i hk
      rw [if_neg hk, ih h]

/-- Writing to a key that is present replaces its value. -/
theorem insert_eq_modify {key : String} {fields : Fields α} (h : key ∈ keys fields) (value : α) :
    insert key value fields = modify key (fun _ => value) fields := by
  induction fields with
  | nil => cases h
  | cons field rest ih =>
    obtain ⟨k, v⟩ := field
    rw [insert, modify]
    split
    · rfl
    · rename_i hk
      rw [keys_cons, List.mem_cons] at h
      rw [ih (h.resolve_left (Ne.symm hk))]

/-- Of two values written to one key the second stays. -/
theorem insert_insert (key : String) (first second : α) (fields : Fields α) :
    insert key second (insert key first fields) = insert key second fields := by
  induction fields with
  | nil => simp [insert]
  | cons field rest ih =>
    obtain ⟨k, v⟩ := field
    by_cases hk : k = key <;> simp [insert, hk, ih]

theorem modify_modify (key : String) (f g : α → α) (fields : Fields α) :
    modify key g (modify key f fields) = modify key (fun value => g (f value)) fields := by
  induction fields with
  | nil => rfl
  | cons field rest ih =>
    obtain ⟨k, v⟩ := field
    by_cases hk : k = key <;> simp [modify, hk, ih]

theorem modify_comm {key other : String} (h : key ≠ other) (f g : α → α) (fields : Fields α) :
    modify other g (modify key f fields) = modify key f (modify other g fields) := by
  induction fields with
  | nil => rfl
  | cons field rest ih =>
    obtain ⟨k, v⟩ := field
    by_cases hkey : k = key
    · subst hkey
      simp [modify, h]
    · by_cases hother : k = other
      · subst hother
        simp [modify, hkey]
      · simp [modify, hkey, hother, ih]

theorem erase_of_notMem {key : String} {fields : Fields α} (h : key ∉ keys fields) :
    erase key fields = fields := by
  induction fields with
  | nil => rfl
  | cons field rest ih =>
    simp only [keys_cons, List.mem_cons, not_or] at h
    simp [erase, Ne.symm h.1, ih h.2]

/-- The last field, moved to the front, is all that changes when a first field is taken out. -/
theorem getLast_cons_dropLast_perm {last : String × α} {rest : Fields α}
    (h : rest.getLast? = some last) : (last :: rest.dropLast).Perm rest := by
  obtain ⟨init, rfl⟩ := List.getLast?_eq_some_iff.1 h
  rw [List.dropLast_concat]
  exact (List.perm_append_singleton last init).symm

/-- Taking a field out loses it and no other. -/
theorem erase_perm {key : String} {value : α} {fields : Fields α}
    (h : get? key fields = some value) : ((key, value) :: erase key fields).Perm fields := by
  induction fields with
  | nil => cases h
  | cons field rest ih =>
    obtain ⟨k, v⟩ := field
    rw [get?] at h
    split at h
    · rename_i hk
      obtain rfl := hk
      obtain rfl := Option.some.inj h
      simp only [erase, if_pos]
      refine List.Perm.cons _ ?_
      split
      · rename_i last hl
        exact getLast_cons_dropLast_perm hl
      · rename_i hl
        rw [List.getLast?_eq_none_iff.1 hl]
    · rename_i hk
      rw [erase, if_neg hk]
      exact (List.Perm.swap (k, v) (key, value) _).trans (List.Perm.cons (k, v) (ih h))

theorem keys_erase_perm {key : String} {fields : Fields α} (h : key ∈ keys fields) :
    (key :: keys (erase key fields)).Perm (keys fields) := by
  obtain ⟨value, hvalue⟩ := Option.isSome_iff_exists.1 (get?_isSome_iff.2 h)
  exact (erase_perm hvalue).map (·.1)

section erase

variable {fields : Fields α} (hkeys : (keys fields).Nodup) (key : String)

include hkeys

theorem nodup_keys_erase_cons (hkey : key ∈ keys fields) :
    (key :: keys (erase key fields)).Nodup :=
  (keys_erase_perm hkey).nodup_iff.2 hkeys

theorem nodup_keys_erase : (keys (erase key fields)).Nodup := by
  by_cases hkey : key ∈ keys fields
  · exact (List.nodup_cons.1 (nodup_keys_erase_cons hkeys key hkey)).2
  · rwa [erase_of_notMem hkey]

theorem get?_erase_self : get? key (erase key fields) = none := by
  rw [get?_eq_none_iff]
  by_cases hkey : key ∈ keys fields
  · exact (List.nodup_cons.1 (nodup_keys_erase_cons hkeys key hkey)).1
  · rwa [erase_of_notMem hkey]

theorem get?_erase_of_ne {other : String} (h : other ≠ key) :
    get? other (erase key fields) = get? other fields := by
  by_cases hkey : key ∈ keys fields
  · obtain ⟨value, hvalue⟩ := Option.isSome_iff_exists.1 (get?_isSome_iff.2 hkey)
    rw [← get?_perm hkeys (erase_perm hvalue) other, get?, if_neg h.symm]
  · rw [erase_of_notMem hkey]

end erase

end Fields

end Stencil
