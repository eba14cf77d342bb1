/-!
# Entries by key

Maps that keep the order in which keys were first put: lists of pairs of a name and a value.
`Keyed.put` replaces the value of a key in place and appends a new key at the end, so a list built
with `Keyed.ofList` has each key once.  `Keyed.sorted` orders entries by name.
-/

namespace HintSchema.Keyed

variable {α β : Type}

/-- The value of a key: that of its first entry. -/
def get? : List (String × α) → String → Option α
  | [], _ => none
  | (k, v) :: rest, key => if k = key then some v else get? rest key

/-- Whether a key has an entry. -/
def contains (entries : List (String × α)) (key : String) : Bool := (get? entries key).isSome

/-- The entries with a value put under a key. -/
def put : List (String × α) → String → α → List (String × α)
  | [], key, value => [(key, value)]
  | (k, v) :: rest, key, value =>
    if k = key then (k, value) :: rest else (k, v) :: put rest key value

/-- The entries without the first one of a key. -/
def erase : List (String × α) → String → List (String × α)
  | [], _ => []
  | (k, v) :: rest, key => if k = key then rest else (k, v) :: erase rest key

/-- The keys in their order. -/
def keys (entries : List (String × α)) : List String := entries.map Prod.fst

/-- The values in the order of their keys. -/
def values (entries : List (String × α)) : List α := entries.map Prod.snd

/-- Puts the pairs of a second list, one after the other. -/
def putAll (entries pairs : List (String × α)) : List (String × α) :=
  pairs.foldl (fun acc p => put acc p.1 p.2) entries

/-- The entries that result from putting the pairs of a list one after the other. -/
def ofList (pairs : List (String × α)) : List (String × α) := putAll [] pairs

/-- Puts an entry in front of the first one whose name is not smaller. -/
def insertSorted (entry : String × α) : List (String × α) → List (String × α)
  | [] => [entry]
  | e :: rest => if e.1 < entry.1 then e :: insertSorted entry rest else entry :: e :: rest

/-- The entries ordered by name; code points decide, so this is also the order of the encoded
bytes. -/
def sorted (entries : List (String × α)) : List (String × α) := entries.foldr insertSorted []

@[simp] theorem get?_nil (key : String) : get? ([] : List (String × α)) key = none := rfl

theorem get?_cons (k key : String) (v : α) (rest : List (String × α)) :
    get? ((k, v) :: rest) key = if k = key then some v else get? rest key := rfl

theorem get?_put (entries : List (String × α)) (k key : String) (v : α) :
    get? (put entries k v) key = if k = key then some v else get? entries key := by
  induction entries with
  | nil => rfl
  | cons e rest ih =>
    obtain ⟨k', v'⟩ := e
    by_cases h : k' = k
    · subst h; by_cases hk : k' = key <;> simp [put, get?_cons, hk]
    · by_cases hk : k' = key
      · subst hk; simp [put, get?_cons, h, Ne.symm h]
      · simp [put, get?_cons, h, hk, ih]

/-- A key that is put keeps its place; a new one goes to the end. -/
theorem keys_put (entries : List (String × α)) (k : String) (v : α) :
    keys (put entries k v) = if k ∈ keys entries then keys entries else keys entries ++ [k] := by
  induction entries with
  | nil => rfl
  | cons e rest ih =>
    obtain ⟨k', v'⟩ := e
    by_cases h : k' = k
    · simp [put, keys, h]
    · have h' : k ≠ k' := Ne.symm h
      simp only [put, h, if_false, keys, List.map_cons, List.mem_cons, h', false_or]
      simp only [keys] at ih
      by_cases hm : k ∈ rest.map Prod.fst <;> simp [ih, hm]

theorem contains_iff_mem_keys (entries : List (String × α)) (key : String) :
    contains entries key = true ↔ key ∈ keys entries := by
  induction entries with
  | nil => simp [contains, keys]
  | cons e rest ih =>
    obtain ⟨k, v⟩ := e
    by_cases h : k = key
    · simp [contains, get?_cons, keys, h]
    · simp only [contains, keys] at ih
      simp [contains, get?_cons, keys, h, Ne.symm h, ih]

end HintSchema.Keyed
