/-
Tables in order of insertion.

A table maps texts to values and remembers in what order its keys first came.  Writing to a
key that is there keeps its place.

* `Table.insert` : a write;
* `Table.get?` : a read;
* `Table.get?_insert` : what a read finds after a write;
* `Table.keys_insert` : where a write puts its key.
-/
namespace ScriptReplay

variable {α β : Type}

/-! ### Lists of pairs -/

/-- The pairs with `v` under `k`: in place of the old value, or at the end. -/
def putPair (k : String) (v : α) : List (String × α) → List (String × α)
  | [] => [(k, v)]
  | (k', v') :: rest => if k' = k then (k, v) :: rest else (k', v') :: putPair k v rest

/-- The value of the first pair with this key. -/
def findPair (k : String) : List (String × α) → Option α
  | [] => none
  | (k', v) :: rest => if k' = k then some v else findPair k rest

theorem keys_putPair (k : String) (v : α) (es : List (String × α)) :
    (putPair k v es).map Prod.fst =
      if k ∈ es.map Prod.fst then es.map Prod.fst else es.map Prod.fst ++ [k] := by
  induction es with
  | nil => simp [putPair]
  | cons e rest ih =>
    obtain ⟨k', v'⟩ := e
    by_cases h : k' = k <;> grind [putPair]

theorem nodup_putPair (k : String) (v : α) {es : List (String × α)}
    (h : (es.map Prod.fst).Nodup) : ((putPair k v es).map Prod.fst).Nodup := by
  rw [keys_putPair]
  split
  · exact h
  · next hk => exact List.nodup_append.2 ⟨h, by simp, by grind⟩

theorem findPair_putPair (k q : String) (v : α) (es : List (String × α)) :
    findPair q (putPair k v es) = if q = k then some v else findPair q es := by
  induction es with
  | nil => grind [findPair, putPair]
  | cons e rest ih =>
    obtain ⟨k', v'⟩ := e
    grind [findPair, putPair]

/-! ### Tables -/

/-- Pairs of a text and a value, each text once. -/
structure Table (α : Type) where
  entries : List (String × α)
  keys_nodup : (entries.map Prod.fst).Nodup

/-- The table with nothing in it. -/
def Table.empty : Table α :=
  ⟨[], by simp⟩

instance : Inhabited (Table α) := ⟨.empty⟩

/-- The table with `v` under `k`. -/
def Table.insert (t : Table α) (k : String) (v : α) : Table α :=
  ⟨putPair k v t.entries, nodup_putPair k v t.keys_nodup⟩

/-- The value under a key. -/
def Table.get? (t : Table α) (k : String) : Option α :=
  findPair k t.entries

/-- Whether there is a value under a key. -/
def Table.contains (t : Table α) (k : String) : Bool :=
  (t.get? k).isSome

/-- The number of keys. -/
def Table.size (t : Table α) : Nat :=
  t.entries.length

/-- The keys in order. -/
def Table.keys (t : Table α) : List String :=
  t.entries.map Prod.fst

/-- The values in order. -/
def Table.values (t : Table α) : List α :=
  t.entries.map Prod.snd

/-- The table of some pairs, each written in turn. -/
def Table.ofList (es : List (String × α)) : Table α :=
  es.foldl (fun t e => t.insert e.1 e.2) .empty

/-- The table with a function applied to every value. -/
def Table.mapValues (f : α → β) (t : Table α) : Table β :=
  ⟨t.entries.map fun e => (e.1, f e.2), by simpa [Function.comp_def] using t.keys_nodup⟩

@[simp]
theorem Table.get?_insert (t : Table α) (k q : String) (v : α) :
    (t.insert k v).get? q = if q = k then some v else t.get? q :=
  findPair_putPair k q v t.entries

theorem Table.keys_insert (t : Table α) (k : String) (v : α) :
    (t.insert k v).keys = if k ∈ t.keys then t.keys else t.keys ++ [k] :=
  keys_putPair k v t.entries

end ScriptReplay
