import Mathlib.Order.Lattice

set_option autoImplicit false

/-! # Ordered maps

Association lists in which every key occurs once and the keys ascend. Insertion replaces the value of a
key that is there already, so a map built from a list of entries holds for each key its last value
(`lookup_ofList`), and what a map holds determines it (`Sorted.ext`, `ofList_eq_iff`). -/

namespace OrderedMap

variable {α β : Type*} [LinearOrder α]

/-- The keys ascend. -/
def Sorted (m : List (α × β)) : Prop := m.Pairwise (fun a b => a.1 < b.1)

/-- Map `key` to `value`, in the place the order gives it. -/
def insert (key : α) (value : β) : List (α × β) → List (α × β)
  | [] => [(key, value)]
  | (key', value') :: m =>
      if key < key' then (key, value) :: (key', value') :: m
      else if key' < key then (key', value') :: insert key value m
      else (key, value) :: m

/-- The entries inserted one after the other. -/
def ofList (entries : List (α × β)) : List (α × β) :=
  entries.foldl (fun m entry => insert entry.1 entry.2 m) []

theorem mem_of_mem_insert {key : α} {value : β} {m : List (α × β)} {entry : α × β}
    (h : entry ∈ insert key value m) : entry = (key, value) ∨ entry ∈ m := by
  induction m with
  | nil => exact .inl (List.mem_singleton.1 h)
  | cons head m ih =>
      obtain ⟨key', value'⟩ := head
      rw [insert] at h
      split_ifs at h with hlt hgt
      · exact List.mem_cons.1 h
      · obtain rfl | h := List.mem_cons.1 h
        · exact .inr List.mem_cons_self
        · exact (ih h).imp id (List.mem_cons_of_mem _)
      · exact (List.mem_cons.1 h).imp id (List.mem_cons_of_mem _)

theorem mem_of_mem_foldl_insert {entries m : List (α × β)} {entry : α × β}
    (h : entry ∈ entries.foldl (fun m entry => insert entry.1 entry.2 m) m) :
    entry ∈ entries ∨ entry ∈ m := by
  induction entries generalizing m with
  | nil => exact .inr h
  | cons head entries ih =>
      obtain h | h := ih h
      · exact .inl (List.mem_cons_of_mem _ h)
      · obtain rfl | h := mem_of_mem_insert h
        · exact .inl List.mem_cons_self
        · exact .inr h

/-- A map holds nothing that was not inserted. -/
theorem mem_of_mem_ofList {entries : List (α × β)} {entry : α × β} (h : entry ∈ ofList entries) :
    entry ∈ entries := (mem_of_mem_foldl_insert h).resolve_right List.not_mem_nil

/-! ## The order is kept -/

theorem sorted_nil : Sorted ([] : List (α × β)) := List.Pairwise.nil

theorem Sorted.insert {m : List (α × β)} (h : Sorted m) (key : α) (value : β) :
    Sorted (insert key value m) := by
  induction m with
  | nil => exact List.pairwise_singleton _ _
  | cons head m ih =>
      obtain ⟨key', value'⟩ := head
      obtain ⟨hhead, htail⟩ := List.pairwise_cons.1 h
      rw [OrderedMap.insert]
      split_ifs with hlt hgt
      · refine List.pairwise_cons.2 ⟨fun entry hentry => ?_, h⟩
        obtain rfl | hentry := List.mem_cons.1 hentry
        · exact hlt
        · exact hlt.trans (hhead entry hentry)
      · refine List.pairwise_cons.2 ⟨fun entry hentry => ?_, ih htail⟩
        obtain rfl | hentry := mem_of_mem_insert hentry
        · exact hgt
        · exact hhead entry hentry
      · obtain rfl : key = key' := le_antisymm (not_lt.1 hgt) (not_lt.1 hlt)
        exact List.pairwise_cons.2 ⟨hhead, htail⟩

theorem Sorted.foldl_insert {m : List (α × β)} (h : Sorted m) (entries : List (α × β)) :
    Sorted (entries.foldl (fun m entry => OrderedMap.insert entry.1 entry.2 m) m) := by
  induction entries generalizing m with
  | nil => exact h
  | cons entry entries ih => exact ih (h.insert entry.1 entry.2)

theorem sorted_ofList (entries : List (α × β)) : Sorted (ofList entries) :=
  sorted_nil.foldl_insert entries

/-! ## Lookups -/

variable [BEq α] [LawfulBEq α]

theorem lookup_insert_self (key : α) (value : β) (m : List (α × β)) :
    (insert key value m).lookup key = some value := by
  induction m with
  | nil => exact List.lookup_cons_self
  | cons head m ih =>
      obtain ⟨key', value'⟩ := head
      rw [insert]
      split_ifs with hlt hgt
      · exact List.lookup_cons_self
      · rw [List.lookup_cons, beq_false_of_ne hgt.ne', ih]
      · exact List.lookup_cons_self

theorem lookup_insert_of_ne {key key' : α} (h : key' ≠ key) (value : β) (m : List (α × β)) :
    (insert key value m).lookup key' = m.lookup key' := by
  have hskip : ∀ m : List (α × β), ((key, value) :: m).lookup key' = m.lookup key' := by
    intro m
    rw [List.lookup_cons, beq_false_of_ne h]
  induction m with
  | nil => exact hskip []
  | cons head m ih =>
      obtain ⟨k, v⟩ := head
      rw [insert]
      split_ifs with hlt hgt
      · exact hskip _
      · rw [List.lookup_cons, List.lookup_cons, ih]
      · obtain rfl : key = k := le_antisymm (not_lt.1 hgt) (not_lt.1 hlt)
        rw [hskip, List.lookup_cons, beq_false_of_ne h]

theorem lookup_foldl_insert (entries m : List (α × β)) (key : α) :
    (entries.foldl (fun m entry => insert entry.1 entry.2 m) m).lookup key
      = (entries.reverse.lookup key).or (m.lookup key) := by
  induction entries generalizing m with
  | nil => rfl
  | cons entry entries ih =>
      obtain ⟨key', value⟩ := entry
      rw [List.foldl_cons, ih, List.reverse_cons, List.lookup_append, Option.or_assoc]
      congr 1
      by_cases hkey : key = key'
      · rw [hkey, lookup_insert_self, List.lookup_cons_self]
        rfl
      · rw [lookup_insert_of_ne hkey, List.lookup_cons, beq_false_of_ne hkey]
        rfl

/-- The last value of a key wins. -/
theorem lookup_ofList (entries : List (α × β)) (key : α) :
    (ofList entries).lookup key = entries.reverse.lookup key :=
  (lookup_foldl_insert entries [] key).trans (Option.or_none ..)

theorem lookup_eq_none_of_forall_lt {m : List (α × β)} {key : α} (h : ∀ entry ∈ m, key < entry.1) :
    m.lookup key = none :=
  List.lookup_eq_none_iff.2 (fun entry hentry => by simpa using (h entry hentry).ne)

/-- Two maps that hold the same are the same list. -/
theorem Sorted.ext {m m' : List (α × β)} (h : Sorted m) (h' : Sorted m')
    (hlookup : ∀ key, m.lookup key = m'.lookup key) : m = m' := by
  induction m generalizing m' with
  | nil =>
      cases m' with
      | nil => rfl
      | cons head m' =>
          have := hlookup head.1
          rw [List.lookup_cons_self] at this
          exact absurd this (by simp)
  | cons head m ih =>
      obtain ⟨key, value⟩ := head
      obtain ⟨hhead, htail⟩ := List.pairwise_cons.1 h
      cases m' with
      | nil =>
          have := hlookup key
          rw [List.lookup_cons_self] at this
          exact absurd this (by simp)
      | cons head' m' =>
          obtain ⟨key', value'⟩ := head'
          obtain ⟨hhead', htail'⟩ := List.pairwise_cons.1 h'
          -- the smaller of the two first keys is in one map only
          obtain hlt | rfl | hgt := lt_trichotomy key key'
          · have hnone : ((key', value') :: m').lookup key = none :=
              lookup_eq_none_of_forall_lt (List.forall_mem_cons.2
                ⟨hlt, fun entry hentry => hlt.trans (hhead' entry hentry)⟩)
            have := (hlookup key).trans hnone
            rw [List.lookup_cons_self] at this
            exact absurd this (by simp)
          · have hvalue := hlookup key
            rw [List.lookup_cons_self, List.lookup_cons_self] at hvalue
            obtain rfl := Option.some.inj hvalue
            refine congrArg _ (ih htail htail' (fun k => ?_))
            by_cases hk : k = key
            · rw [hk, lookup_eq_none_of_forall_lt hhead, lookup_eq_none_of_forall_lt hhead']
            · have := hlookup k
              rwa [List.lookup_cons, List.lookup_cons, beq_false_of_ne hk] at this
          · have hnone : ((key, value) :: m).lookup key' = none :=
              lookup_eq_none_of_forall_lt (List.forall_mem_cons.2
                ⟨hgt, fun entry hentry => hgt.trans (hhead entry hentry)⟩)
            have := (hlookup key').symm.trans hnone
            rw [List.lookup_cons_self] at this
            exact absurd this (by simp)

/-- Only the last value of each key counts, whatever the order of the entries. -/
theorem ofList_eq_iff {entries entries' : List (α × β)} :
    ofList entries = ofList entries' ↔
      ∀ key, entries.reverse.lookup key = entries'.reverse.lookup key := by
  simp only [← lookup_ofList]
  exact ⟨fun h key => by rw [h], (sorted_ofList entries).ext (sorted_ofList entries')⟩

end OrderedMap
