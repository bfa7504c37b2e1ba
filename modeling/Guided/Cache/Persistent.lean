import Guided.Cache.Disk
import Guided.Cache.Results
import Guided.Value.Decode

/-!
# A cache with a file behind it

The file holds all results as one JSON object. It is replaced as a whole: the new text
goes to a temporary file beside it, which then takes the place of the old one. When that
fails, the cache goes on with the results in memory. A file that cannot be read as such an
object counts as empty.

## Main definitions

* `StoredCache.write`, `StoredCache.load?`: the text of a cache and its inverse.
* `PersistentCache`: `persist`, `insert`, `lookupOrCompute`.
-/
namespace Guided

namespace StoredCache

/-- The text of a file with the given results. -/
def write (entries : Fields Value) : String :=
  (Value.object [("entries", .object entries)]).text

/-- How deep values in a file may be nested, inside its two outer objects. -/
def maxDepth : Nat := maxValueDepth - 2

/-- The results in the object that maps keys to them. -/
def entries? : JsonTree → Option (Fields Value)
  | .object fields => (Value.ofFields? maxDepth fields).map Fields.ofList
  | _ => none

/-- Whether a field has the given name; names that are no texts have none. -/
def isField (name : String) (field : Option String × JsonTree) : Bool := field.1 == some name

/-- The results in a file: an object with one field for them, or a list of just them.
Other fields are passed over. -/
def ofTree? : JsonTree → Option (Fields Value)
  | .array [tree] => entries? tree
  | .object fields =>
      if fields.all (·.1.isSome) then
        match fields.filter (isField "entries") with
        | [(_, tree)] => entries? tree
        | _ => none
      else none
  | _ => none

/-- The results in the text of a file. -/
def load? (text : String) : Option (Fields Value) := (JsonTree.parse text).bind ofTree?

end StoredCache

/-- A cache in memory, or one with a file of a given name behind it. -/
structure PersistentCache where
  results : ResultCache
  path : Option String

namespace PersistentCache

/-- A cache that has no file. -/
def inMemory : PersistentCache := ⟨.empty, none⟩

/-- The cache that a file holds; without a file, or with one that is not the text of a
cache, it is empty. -/
def ofDisk (disk : Disk) (path : String) : PersistentCache :=
  ⟨.ofEntries (((disk.files path).bind StoredCache.load?).getD []), some path⟩

/-- The file that is written in place of the one with the given name. -/
def temporary (path : String) : String := FileName.withExtension path "tmp"

/-- Write all results to the file, if there is one, by way of the temporary one. -/
def persist (c : PersistentCache) (disk : Disk) : Except Error Unit × Disk :=
  match c.path with
  | none => (.ok (), disk)
  | some path =>
      match disk.write (temporary path) (StoredCache.write c.results.entries) with
      | (.error e, disk) => (.error e, disk)
      | (.ok (), disk) => disk.move (temporary path) path

/-- Keep a result and write the file. The result is kept also when writing fails. -/
def insert (c : PersistentCache) (disk : Disk) (key : CacheKey) (v : Value) :
    Except Error Unit × PersistentCache × Disk :=
  let c := { c with results := c.results.insert key v }
  let (written, disk) := c.persist disk
  (written, c, disk)

/-- The result of a call: the one that is kept, or else the one computed now, which is
kept from now on. Whether it was computed is part of the answer. A failure is not kept,
and a file that cannot be written is no failure. -/
def lookupOrCompute (c : PersistentCache) (disk : Disk) (key : CacheKey)
    (compute : Unit → Except Error Value) :
    (Except Error Value × Bool) × PersistentCache × Disk :=
  match c.results.lookup key with
  | (some v, results) => ((.ok v, false), { c with results }, disk)
  | (none, results) =>
      let c := { c with results }
      match compute () with
      | .error e => ((.error e, true), c, disk)
      | .ok v =>
          let (_, c, disk) := c.insert disk key v
          ((.ok v, true), c, disk)

end PersistentCache

end Guided
