import Guided.Cache.Persistent
import Guided.Proofs.Value.Decoding

/-!
# Results in a file

The text of a cache is read back as the cache, if each of its values is read back where it stands.
Writing a cache replaces the whole file or leaves it as it is: the temporary file has another name,
and whatever fails, fails before it takes the place of the file.

## Main definitions

* `StoredCache.Kept`: the values that a file gives back.

## Main statements

* `FileName.withExtension_ne`: a name with another extension is another name.
* `StoredCache.load?_write`: a file gives back what was written to it.
* `StoredCache.kept_of_readable`: values without fractions are given back.
* `PersistentCache.persist_cases`: what writing a cache does to its file.
-/
namespace Guided

/-! ## File names -/

namespace FileName

/-- A name has no extension, or it consists of its stem, a dot and the extension. -/
theorem parts_cases (name : List Char) : parts name = (name, none) ∨
    ∃ stem extension, parts name = (stem, some extension) ∧ name = stem ++ '.' :: extension := by
  have hsplit := List.takeWhile_append_dropWhile (p := fun c => decide (c ≠ '.')) (l := name.reverse)
  have hdot := List.head?_dropWhile_not (fun c => decide (c ≠ '.')) name.reverse
  rw [parts]
  rcases hrest : name.reverse.dropWhile (fun c => decide (c ≠ '.')) with _ | ⟨d, _ | ⟨c, stem⟩⟩
  · exact .inl rfl
  · exact .inl rfl
  · refine .inr ⟨_, _, rfl, ?_⟩
    rw [hrest] at hsplit hdot
    obtain rfl : d = '.' := by simpa using hdot
    calc name = name.reverse.reverse := (List.reverse_reverse name).symm
      _ = (name.reverse.takeWhile (fun c => decide (c ≠ '.')) ++ '.' :: c :: stem).reverse := by
        rw [hsplit]
      _ = _ := by simp

/-- A name with an extension that it does not have is another name. -/
theorem withExtension_ne {name extension : String} (h : extension? name ≠ some extension) :
    withExtension name extension ≠ name := by
  intro heq
  have hlists : (parts name.toList).1 ++ '.' :: extension.toList = name.toList := by
    rw [← String.toList_inj, withExtension, String.toList_ofList] at heq
    exact heq
  rcases parts_cases name.toList with hnone | ⟨stem, ending, hparts, hname⟩
  · rw [hnone] at hlists
    have hlength := congrArg List.length hlists
    simp at hlength
  · rw [hparts, hname] at hlists
    have hending : extension.toList = ending := by simpa using hlists
    refine h ?_
    rw [extension?, hparts, Option.map_some, ← hending, String.ofList_toList]

end FileName

/-! ## Texts -/

namespace StoredCache

variable {entries : Fields Value} {v : Value}

/-- The text of a cache is read field by field. -/
theorem load?_write_eq (entries : Fields Value) : load? (write entries) =
    (Value.ofFields? maxDepth (Value.fieldTrees entries)).map Fields.ofList := by
  have hparse : JsonTree.parse (write entries) =
      some (Value.object [("entries", .object entries)]).tree := by
    rw [write, Value.text, ← Value.chars_tree]
    exact JsonTree.parse_chars (Value.written_tree _)
  rw [load?, hparse]
  simp [Value.tree, Value.fieldTrees, ofTree?, isField, entries?]

/-- A value that is given back by a file that holds it: there, decoding inverts encoding. -/
def Kept (v : Value) : Prop := load? (write [("", v)]) = some [("", v)]

theorem kept_iff : Kept v ↔ Value.ofTree? maxDepth v.tree = some v := by
  rw [Kept, load?_write_eq]
  cases hread : Value.ofTree? maxDepth v.tree <;>
    simp [Value.fieldTrees, Value.ofFields?, hread, Fields.ofList, Fields.insert]

theorem ofFields?_of_kept (h : ∀ e ∈ entries, Kept e.2) :
    Value.ofFields? maxDepth (Value.fieldTrees entries) = some entries := by
  induction entries with
  | nil => rfl
  | cons e entries ih =>
      obtain ⟨name, v⟩ := e
      rw [List.forall_mem_cons] at h
      rw [Value.fieldTrees, Value.ofFields?, kept_iff.1 h.1, ih h.2]
      rfl

/-- **A file gives back what was written to it.** -/
theorem load?_write (hsorted : Fields.Sorted entries) (h : ∀ e ∈ entries, Kept e.2) :
    load? (write entries) = some entries := by
  rw [load?_write_eq, ofFields?_of_kept h, Option.map_some, hsorted.ofList_eq]

/-- Values without fractions are given back, if they are not nested too deeply. -/
theorem kept_of_readable (h : v.Readable maxDepth) : Kept v :=
  kept_iff.2 (v.ofTree?_tree maxDepth h)

theorem sorted_of_entries? {tree : JsonTree} (h : entries? tree = some entries) :
    Fields.Sorted entries := by
  cases tree with
  | object fields =>
      obtain ⟨read, -, rfl⟩ := Option.map_eq_some_iff.1 h
      exact Fields.sorted_ofList read
  | _ => simp [entries?] at h

/-- What a file gives is in order. -/
theorem sorted_of_load? {text : String} (h : load? text = some entries) :
    Fields.Sorted entries := by
  obtain ⟨tree, -, htree⟩ := Option.bind_eq_some_iff.1 h
  rw [ofTree?.eq_def] at htree
  split at htree
  · exact sorted_of_entries? htree
  · split at htree
    · split at htree
      · exact sorted_of_entries? htree
      · simp at htree
    · simp at htree
  · simp at htree

end StoredCache

/-! ## Writing a cache -/

namespace PersistentCache

variable {c : PersistentCache} {path : String}

theorem temporary_ne (h : FileName.extension? path ≠ some "tmp") : temporary path ≠ path :=
  FileName.withExtension_ne h

/-- What a file gives is in order, also where it gives nothing. -/
theorem sorted_ofDisk (disk : Disk) (path : String) :
    Fields.Sorted (ofDisk disk path).results.entries := by
  change Fields.Sorted (((disk.files path).bind StoredCache.load?).getD [])
  cases hload : (disk.files path).bind StoredCache.load? with
  | none => exact Fields.sorted_nil
  | some entries =>
      obtain ⟨text, -, htext⟩ := Option.bind_eq_some_iff.1 hload
      exact StoredCache.sorted_of_load? htext

/-- **The file is replaced, or it stays.** If nothing goes wrong, it is the text of all results
afterwards. Otherwise writing is an error, and the file is as before. -/
theorem persist_cases (hbacked : c.path = some path)
    (hpath : FileName.extension? path ≠ some "tmp") (disk : Disk) :
    (disk.fault = none ∧ ∃ disk', c.persist disk = (.ok (), disk') ∧ disk'.fault = none ∧
      disk'.files path = some (StoredCache.write c.results.entries)) ∨
    (disk.fault ≠ none ∧ ∃ disk', c.persist disk = (.error .io, disk') ∧
      disk'.fault = disk.fault ∧ disk'.files path = disk.files path) := by
  have hother : path ≠ temporary path := (temporary_ne hpath).symm
  cases hfault : disk.fault with
  | none => exact .inl ⟨rfl, by simp [persist, hbacked, Disk.write, Disk.move, hfault]⟩
  | some fault =>
      right
      cases fault <;>
        simp [persist, hbacked, Disk.write, Disk.move, hfault, Disk.files_put_of_ne _ hother]

end PersistentCache

end Guided
