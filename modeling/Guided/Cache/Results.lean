import Guided.Cache.Key
import Guided.Fields

/-!
# Cached results

Results that have been computed before, by key, with counts of how often they were asked
for and how often they were there.

## Main definitions

* `ResultCache`, `ResultCache.lookup`, `ResultCache.insert`.
* `ResultCache.statsText`.
-/
namespace Guided

/-- Results by the text of their key, and the counts of lookups and of hits. -/
structure ResultCache where
  entries : Fields Value
  total : Nat
  hits : Nat

namespace ResultCache

/-- A cache with the given results that has not been asked for any. -/
def ofEntries (entries : Fields Value) : ResultCache := ⟨entries, 0, 0⟩

/-- A cache without results. -/
def empty : ResultCache := ofEntries []

/-- The result under a key. -/
def get? (c : ResultCache) (key : CacheKey) : Option Value := c.entries.find? key.text

/-- Ask for the result under a key, counting the question and whether it was answered. -/
def lookup (c : ResultCache) (key : CacheKey) : Option Value × ResultCache :=
  match c.get? key with
  | some v => (some v, { c with total := c.total + 1, hits := c.hits + 1 })
  | none => (none, { c with total := c.total + 1 })

/-- Keep a result under a key, in place of an earlier one. -/
def insert (c : ResultCache) (key : CacheKey) (v : Value) : ResultCache :=
  { c with entries := c.entries.insert key.text v }

/-- The counts in words. -/
def statsText (c : ResultCache) : String :=
  "Total queries: " ++ toString c.total ++ ", Cached queries: " ++ toString c.hits

@[simp] theorem get?_insert_self (c : ResultCache) (key : CacheKey) (v : Value) :
    (c.insert key v).get? key = some v := by
  simp [get?, insert]

theorem get?_insert_of_ne (c : ResultCache) {key other : CacheKey} (h : other ≠ key) (v : Value) :
    (c.insert key v).get? other = c.get? other := by
  have hne : other.text ≠ key.text := fun e => h (by cases other; cases key; cases e; rfl)
  simp [get?, insert, Fields.find?_insert_of_ne _ hne]

@[simp] theorem lookup_fst (c : ResultCache) (key : CacheKey) :
    (c.lookup key).1 = c.get? key := by
  unfold lookup; split <;> simp_all

@[simp] theorem lookup_entries (c : ResultCache) (key : CacheKey) :
    (c.lookup key).2.entries = c.entries := by
  unfold lookup; split <;> rfl

end ResultCache

end Guided
