/-!
# Tables in order of insertion

A table holds one value per key and lists its keys in the order in which they came. Overwriting a
value leaves its key in place.
-/

namespace NamedSchemas

/-- A finite map whose keys are listed in order of insertion. -/
structure Table (κ ν : Type) where
  entries : List (κ × ν)
  /-- No key is listed twice. -/
  nodup : (entries.map Prod.fst).Nodup

namespace Table

variable {κ ν μ : Type}

def empty : Table κ ν := ⟨[], List.nodup_nil⟩

instance : EmptyCollection (Table κ ν) := ⟨empty⟩

def keys (t : Table κ ν) : List κ := t.entries.map Prod.fst

def mapValues (f : κ → ν → μ) (t : Table κ ν) : Table κ μ where
  entries := t.entries.map fun entry => (entry.1, f entry.1 entry.2)
  nodup := by simpa [List.map_map, Function.comp_def] using t.nodup

variable [DecidableEq κ]

def get? (t : Table κ ν) (key : κ) : Option ν :=
  (t.entries.find? fun entry => entry.1 = key).map Prod.snd

def contains (t : Table κ ν) (key : κ) : Bool := key ∈ t.keys

def erase (t : Table κ ν) (key : κ) : Table κ ν where
  entries := t.entries.filter fun entry => entry.1 ≠ key
  nodup := t.nodup.sublist (List.filter_sublist.map Prod.fst)

/-- Puts a value under a key: in place when the key is there, at the end when it is not. -/
def insert (t : Table κ ν) (key : κ) (value : ν) : Table κ ν :=
  if h : key ∈ t.keys then t.mapValues fun k old => if k = key then value else old
  else
    { entries := t.entries ++ [(key, value)]
      nodup := by
        rw [List.map_append, List.nodup_append]
        refine ⟨t.nodup, by simp, ?_⟩
        rintro a ha b hb rfl
        simp only [List.map_cons, List.map_nil, List.mem_singleton] at hb
        exact h (hb ▸ ha) }

end Table

end NamedSchemas
