import Mathlib.Algebra.BigOperators.Group.List
import Mathlib.Algebra.Order.Field.Rat
import Mathlib.Tactic.Ring
import Mathlib.Tactic.Linarith
/-!
# The holder map (`hashmap.h`)

Both contracts keep one `UserState` per address in a `struct hashmap`
(`hashmap_new`, `hashmap_get`, `hashmap_set`, `hashmap_iter`), hashed with
`hashmap_sip` on the address and compared with `strcmp`. The hash map itself
is not among the sources; its contract is the spec's HolderStore (§4.1): a
lookup that does not insert, an insert-or-overwrite, and an iteration that
visits every live item exactly once. Bucket layout and hashing are not
observable through that contract, so the map is an association list with
distinct keys, in insertion order.

Results:
* `get_set_self`, `get_set_ne`: `hashmap_set` overwrites exactly the item
  under its key.
* `sum_set`: a quantity summed over all items changes, under `hashmap_set`,
  by the new item's value minus the overwritten one's.
* `get_map`, `map_set`, `update_map`: reading every item through a record
  translation commutes with the map's operations.
-/
namespace WasmContracts

/-- Modelled from the spec: `hashmap.h` is not among the sources. The
HolderStore of spec §4.1, keyed by the address string; `nodup` is the map's
own invariant that no address is stored twice. -/
structure HashMap (α : Type) where
  items : List (String × α)
  nodup : (items.map Prod.fst).Nodup

namespace HashMap

variable {α : Type}

/-- Modelled from the spec: `hashmap_new`, the empty map. -/
def new : HashMap α := ⟨[], List.nodup_nil⟩

/-- Modelled from the spec: `hashmap_get`, the item stored under `key`. -/
def get (m : HashMap α) (key : String) : Option α := m.items.lookup key

/-- Insert-or-overwrite on the item list: the item under `key` is replaced in
place, a new key goes to the end. -/
def setItems (key : String) (v : α) : List (String × α) → List (String × α)
  | [] => [(key, v)]
  | (k, w) :: rest => if k = key then (key, v) :: rest else (k, w) :: setItems key v rest

theorem keys_setItems (key : String) (v : α) (l : List (String × α)) :
    (setItems key v l).map Prod.fst =
      if key ∈ l.map Prod.fst then l.map Prod.fst else l.map Prod.fst ++ [key] := by
  induction l with
  | nil => rfl
  | cons p rest ih =>
    obtain ⟨k, w⟩ := p
    by_cases hk : k = key
    · subst hk; simp only [setItems, if_pos, List.map_cons, List.mem_cons_self, if_true]
    · simp only [setItems, if_neg hk, List.map_cons, ih, List.mem_cons, Ne.symm hk, false_or]
      split <;> rfl

theorem nodup_setItems (key : String) (v : α) {l : List (String × α)}
    (h : (l.map Prod.fst).Nodup) : ((setItems key v l).map Prod.fst).Nodup := by
  rw [keys_setItems]
  split
  · exact h
  · exact h.append (List.nodup_singleton key) (List.disjoint_singleton.2 ‹_›)

/-- Modelled from the spec: `hashmap_set`, insert or overwrite. -/
def set (m : HashMap α) (key : String) (v : α) : HashMap α :=
  ⟨setItems key v m.items, nodup_setItems key v m.nodup⟩

/-- Modelled from the spec: the `hashmap_iter` loop that rewrites every item
in place. -/
def update (m : HashMap α) (f : α → α) : HashMap α :=
  ⟨m.items.map (fun p => (p.1, f p.2)), by simpa [Function.comp_def] using m.nodup⟩

@[simp] theorem new_items : (new : HashMap α).items = [] := rfl
@[simp] theorem get_new (key : String) : (new : HashMap α).get key = none := rfl
@[simp] theorem update_items (m : HashMap α) (f : α → α) :
    (m.update f).items = m.items.map (fun p => (p.1, f p.2)) := rfl
@[simp] theorem set_items (m : HashMap α) (key : String) (v : α) :
    (m.set key v).items = setItems key v m.items := rfl

theorem lookup_cons_of_ne {k k' : String} (w : α) (l : List (String × α)) (h : k ≠ k') :
    ((k', w) :: l).lookup k = l.lookup k := by
  simp [List.lookup_cons, beq_false_of_ne h]

theorem lookup_setItems_self (key : String) (v : α) (l : List (String × α)) :
    (setItems key v l).lookup key = some v := by
  induction l with
  | nil => simp [setItems]
  | cons p rest ih =>
    obtain ⟨k, w⟩ := p
    by_cases hk : k = key
    · simp [setItems, hk]
    · simp only [setItems, if_neg hk, lookup_cons_of_ne w _ (Ne.symm hk), ih]

theorem lookup_setItems_ne {key k : String} (v : α) (l : List (String × α)) (h : k ≠ key) :
    (setItems key v l).lookup k = l.lookup k := by
  induction l with
  | nil => simp [setItems, lookup_cons_of_ne v _ h]
  | cons p rest ih =>
    obtain ⟨k', w⟩ := p
    by_cases hk : k' = key
    · subst hk; simp only [setItems, if_pos, lookup_cons_of_ne _ _ h]
    · simp only [setItems, if_neg hk, List.lookup_cons, ih]

@[simp] theorem get_set_self (m : HashMap α) (key : String) (v : α) :
    (m.set key v).get key = some v := lookup_setItems_self key v m.items

@[simp] theorem get_set_ne (m : HashMap α) {key k : String} (v : α) (h : k ≠ key) :
    (m.set key v).get k = m.get k := lookup_setItems_ne v m.items h

theorem mem_setItems {key : String} {v : α} {l : List (String × α)} {p : String × α}
    (h : p ∈ setItems key v l) : p ∈ l ∨ p = (key, v) := by
  induction l with
  | nil => simpa [setItems] using h
  | cons q rest ih =>
    obtain ⟨k, w⟩ := q
    unfold setItems at h
    split at h <;> simp only [List.mem_cons] at h
    · rcases h with h | h
      · exact .inr h
      · exact .inl (List.mem_cons_of_mem _ h)
    · rcases h with h | h
      · exact .inl (h ▸ List.mem_cons_self _ _)
      · exact (ih h).imp_left (List.mem_cons_of_mem _)

theorem mem_of_get {m : HashMap α} {key : String} {v : α} (h : m.get key = some v) :
    (key, v) ∈ m.items := by
  obtain ⟨l₁, l₂, e, -⟩ := List.lookup_eq_some_iff.1 h
  simp [e]

theorem get_of_mem {m : HashMap α} {p : String × α} (h : p ∈ m.items) : m.get p.1 = some p.2 := by
  obtain ⟨items, nodup⟩ := m
  obtain ⟨k, v⟩ := p
  unfold get
  dsimp only at h ⊢
  induction items with
  | nil => cases h
  | cons q rest ih =>
    obtain ⟨k', w⟩ := q
    rw [List.map_cons, List.nodup_cons] at nodup
    rcases List.mem_cons.1 h with e | h
    · cases e; simp [List.lookup_cons]
    · have hne : k ≠ k' := fun e => nodup.1 (List.mem_map.2 ⟨_, h, e⟩)
      rw [lookup_cons_of_ne _ _ hne]
      exact ih nodup.2 h

theorem ext {m m' : HashMap α} (h : m.items = m'.items) : m = m' := by
  cases m; cases m'; cases h; rfl

/-- Every item seen through `f`, keys and order kept: how a map of one record
type is read as a map of another. -/
def map {β : Type} (f : α → β) (m : HashMap α) : HashMap β :=
  ⟨m.items.map (fun p => (p.1, f p.2)), by simpa [Function.comp_def] using m.nodup⟩

section Map

variable {β : Type} (f : α → β)

@[simp] theorem map_items (m : HashMap α) : (m.map f).items = m.items.map (fun p => (p.1, f p.2)) :=
  rfl

@[simp] theorem map_new : (new : HashMap α).map f = new := rfl

theorem get_map (m : HashMap α) (key : String) : (m.map f).get key = (m.get key).map f := by
  simp only [get, map_items]
  induction m.items with
  | nil => rfl
  | cons p rest ih =>
    obtain ⟨k, w⟩ := p
    by_cases hk : key = k
    · subst hk; simp
    · simp only [List.map_cons, lookup_cons_of_ne _ _ hk, ih]

theorem setItems_map (key : String) (v : α) (l : List (String × α)) :
    (setItems key v l).map (fun p => (p.1, f p.2)) = setItems key (f v) (l.map fun p => (p.1, f p.2)) := by
  induction l with
  | nil => rfl
  | cons p rest ih =>
    obtain ⟨k, w⟩ := p
    by_cases hk : k = key
    · simp [setItems, hk]
    · simp [setItems, hk, ih]

theorem map_set (m : HashMap α) (key : String) (v : α) : (m.set key v).map f = (m.map f).set key (f v) :=
  ext (setItems_map f key v m.items)

/-- Rewriting every item commutes with reading it through `f` when the two
rewrites agree on every stored item. -/
theorem update_map (m : HashMap α) (g : β → β) (g' : α → α)
    (h : ∀ p ∈ m.items, g (f p.2) = f (g' p.2)) : (m.map f).update g = (m.update g').map f :=
  ext (by
    simp only [update_items, map_items, List.map_map]
    exact List.map_congr_left fun p hp => congrArg (Prod.mk p.1) (h p hp))

end Map

theorem get_update (m : HashMap α) (f : α → α) (key : String) :
    (m.update f).get key = (m.get key).map f :=
  get_map f m key

theorem update_congr (m : HashMap α) {g g' : α → α} (h : ∀ p ∈ m.items, g p.2 = g' p.2) :
    m.update g = m.update g' :=
  ext (List.map_congr_left fun p hp => congrArg (Prod.mk p.1) (h p hp))

/-- `hashmap_set` changes a sum over all items by the new value minus the
overwritten one (nothing is subtracted for a new key). -/
theorem sum_set (m : HashMap α) (key : String) (v : α) (g : α → ℚ) :
    ((m.set key v).items.map (fun p => g p.2)).sum + ((m.get key).map g).getD 0 =
      (m.items.map (fun p => g p.2)).sum + g v := by
  simp only [set_items, get]
  induction m.items with
  | nil => simp [setItems]
  | cons p rest ih =>
    obtain ⟨k, w⟩ := p
    by_cases hk : k = key
    · subst hk; simp [setItems]; ring
    · simp only [setItems, if_neg hk, List.map_cons, List.sum_cons,
        lookup_cons_of_ne w _ (Ne.symm hk)]
      linarith

end HashMap

end WasmContracts
