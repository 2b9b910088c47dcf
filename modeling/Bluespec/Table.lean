namespace Bluespec

/-- A finite map from names to values, kept in the order of the names. -/
structure Table (α : Type) where
  entries : List (String × α)
  sorted : entries.Pairwise (fun a b => a.1 < b.1)
deriving DecidableEq

namespace Table

variable {α : Type}

def empty : Table α := ⟨[], .nil⟩

instance : EmptyCollection (Table α) := ⟨empty⟩

instance : Inhabited (Table α) := ⟨empty⟩

def find (name : String) : List (String × α) → Option α
  | [] => none
  | e :: rest => if name = e.1 then some e.2 else find name rest

def get? (t : Table α) (name : String) : Option α := find name t.entries

def contains (t : Table α) (name : String) : Bool := (t.get? name).isSome

def keys (t : Table α) : List String := t.entries.map Prod.fst

def size (t : Table α) : Nat := t.entries.length

theorem mem_of_find {name : String} {value : α} {l : List (String × α)}
    (h : find name l = some value) : (name, value) ∈ l := by
  induction l with
  | nil => cases h
  | cons e rest ih =>
    by_cases he : name = e.1
    · simp [find, he] at h
      simp [he, ← h]
    · simp [find, he] at h
      exact List.mem_cons_of_mem _ (ih h)

theorem find_of_mem {name : String} {value : α} {l : List (String × α)}
    (hl : l.Pairwise (fun a b => a.1 < b.1)) (h : (name, value) ∈ l) :
    find name l = some value := by
  induction l with
  | nil => cases h
  | cons e rest ih =>
    obtain ⟨hfirst, hrest⟩ := List.pairwise_cons.mp hl
    by_cases he : (name, value) = e
    · simp [find, ← he]
    · have hmem : (name, value) ∈ rest := (List.mem_cons.mp h).resolve_left he
      have hne : name ≠ e.1 := fun heq => String.lt_irrefl _ (heq ▸ hfirst _ hmem)
      rw [find, if_neg hne]
      exact ih hrest hmem

theorem mem_entries_iff {t : Table α} {name : String} {value : α} :
    (name, value) ∈ t.entries ↔ t.get? name = some value :=
  ⟨find_of_mem t.sorted, mem_of_find⟩

theorem nodup_entries (t : Table α) : t.entries.Nodup := by
  refine t.sorted.imp ?_
  rintro a b hlt rfl
  exact String.lt_irrefl _ hlt

def place (name : String) (value : α) : List (String × α) → List (String × α)
  | [] => [(name, value)]
  | e :: rest =>
    if name < e.1 then (name, value) :: e :: rest
    else if name = e.1 then (name, value) :: rest
    else e :: place name value rest

theorem mem_place {name : String} {value : α} {l : List (String × α)} {e : String × α}
    (h : e ∈ place name value l) : e = (name, value) ∨ e ∈ l := by
  induction l with
  | nil => simpa [place] using h
  | cons d rest ih =>
    rw [place] at h
    split at h
    · simpa using h
    · split at h
      · rcases List.mem_cons.mp h with h | h
        · exact .inl h
        · exact .inr (List.mem_cons_of_mem _ h)
      · rcases List.mem_cons.mp h with h | h
        · exact .inr (h ▸ List.mem_cons_self)
        · exact (ih h).imp id (List.mem_cons_of_mem _)

theorem lt_of_not_lt_of_ne {a b : String} (h : ¬ a < b) (hne : a ≠ b) : b < a := by
  have hle : b ≤ a := String.not_lt.mp h
  rcases Decidable.em (b < a) with hlt | hlt
  · exact hlt
  · exact absurd (String.le_antisymm (String.not_lt.mp hlt) hle) hne

theorem sorted_place (name : String) (value : α) {l : List (String × α)}
    (h : l.Pairwise (fun a b => a.1 < b.1)) :
    (place name value l).Pairwise (fun a b => a.1 < b.1) := by
  induction l with
  | nil => simp [place]
  | cons d rest ih =>
    obtain ⟨hd, hr⟩ := List.pairwise_cons.mp h
    rw [place]
    split
    · rename_i hlt
      refine List.pairwise_cons.mpr ⟨fun e he => ?_, h⟩
      rcases List.mem_cons.mp he with rfl | he
      · exact hlt
      · exact String.lt_trans hlt (hd e he)
    · rename_i hnlt
      split
      · rename_i heq
        exact List.pairwise_cons.mpr ⟨fun e he => heq ▸ hd e he, hr⟩
      · rename_i hne
        refine List.pairwise_cons.mpr ⟨fun e he => ?_, ih hr⟩
        rcases mem_place he with rfl | he
        · exact lt_of_not_lt_of_ne hnlt hne
        · exact hd e he

def insert (t : Table α) (name : String) (value : α) : Table α :=
  ⟨place name value t.entries, sorted_place name value t.sorted⟩

def erase (t : Table α) (name : String) : Table α :=
  ⟨t.entries.filter (·.1 ≠ name), t.sorted.sublist List.filter_sublist⟩

@[simp]
theorem get?_empty (name : String) : (empty : Table α).get? name = none := rfl

theorem find_place (name key : String) (value : α) (l : List (String × α)) :
    find key (place name value l) = if key = name then some value else find key l := by
  induction l with
  | nil => rfl
  | cons d rest ih =>
    rw [place]
    split
    · rfl
    · split
      · rename_i heq
        by_cases h : key = name <;> simp [find, h, ← heq]
      · rename_i hne
        by_cases h : key = d.1
        · simp [find, h, Ne.symm hne]
        · simp [find, h, ih]

@[simp]
theorem get?_insert (t : Table α) (name key : String) (value : α) :
    (t.insert name value).get? key = if key = name then some value else t.get? key :=
  find_place name key value t.entries

def ofList (l : List (String × α)) : Table α := l.foldl (fun t e => t.insert e.1 e.2) ∅

theorem get?_insertAll {l : List (String × α)} (h : (l.map Prod.fst).Nodup) (t : Table α)
    {name : String} {value : α} :
    (l.foldl (fun t e => t.insert e.1 e.2) t).get? name = some value ↔
      (name, value) ∈ l ∨ name ∉ l.map Prod.fst ∧ t.get? name = some value := by
  induction l generalizing t with
  | nil => simp
  | cons e rest ih =>
    obtain ⟨hfirst, hrest⟩ := List.nodup_cons.mp h
    rw [List.foldl_cons, ih hrest, get?_insert]
    by_cases hname : name = e.1
    · have hvalue : (e.1, value) ∉ rest := fun hmem =>
        hfirst (List.mem_map.mpr ⟨_, hmem, rfl⟩)
      simp [hname, hvalue, hfirst, Prod.ext_iff, eq_comm]
    · simp [hname, Prod.ext_iff]

theorem get?_ofList {l : List (String × α)} (h : (l.map Prod.fst).Nodup) {name : String}
    {value : α} : (ofList l).get? name = some value ↔ (name, value) ∈ l := by
  simp [ofList, get?_insertAll h, EmptyCollection.emptyCollection]

theorem find_filter_ne (name key : String) (l : List (String × α)) :
    find key (l.filter (·.1 ≠ name)) = if key = name then none else find key l := by
  induction l with
  | nil => simp [find]
  | cons d rest ih =>
    by_cases hd : d.1 = name <;> by_cases hk : key = name <;> by_cases he : key = d.1 <;>
      simp_all [find]

@[simp]
theorem get?_erase (t : Table α) (name key : String) :
    (t.erase name).get? key = if key = name then none else t.get? key :=
  find_filter_ne name key t.entries

end Table

end Bluespec
