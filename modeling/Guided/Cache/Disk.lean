import Guided.Error

/-!
# Files of a folder

A folder holds texts under file names. A new file is written from beginning to end, which may
fail: it may not be begun, or break off, and what has been written up to then stays. A complete
file takes the place of another one in one step.

## Main definitions

* `FileName.extension?`, `FileName.withExtension`: what stands behind the last dot of a name.
* `Disk`, `Disk.write`, `Disk.move`: files, and how they are written and replaced.
-/
namespace Guided

namespace FileName

/-- A file name before and behind its last dot. A dot at the beginning is part of the name. -/
def parts (name : List Char) : List Char × Option (List Char) :=
  match name.reverse.dropWhile (· ≠ '.') with
  | _ :: c :: stem => ((c :: stem).reverse, some (name.reverse.takeWhile (· ≠ '.')).reverse)
  | _ => (name, none)

/-- What stands behind the last dot of a file name. -/
def extension? (name : String) : Option String := (parts name.toList).2.map String.ofList

/-- A file name with another extension. -/
def withExtension (name extension : String) : String :=
  String.ofList ((parts name.toList).1 ++ '.' :: extension.toList)

example : withExtension "results.json" "tmp" = "results.tmp" := by decide +kernel

example : withExtension ".results" "tmp" = ".results.tmp" := by decide +kernel

end FileName

/-- What keeps a new file from taking the place of an old one: it is not begun, it breaks off
after so many characters, or it is complete and cannot be moved. -/
inductive DiskFault where
  | refused
  | cut (length : Nat)
  | stuck
deriving DecidableEq, Repr

/-- The texts of files by their names, and how writing fails at present, if it does. Files hold
characters, not bytes: a file that is not UTF-8 is not among them, nor is one that broke off
within a character. All files are in one folder, and a path is the name of a file in it. -/
structure Disk where
  files : String → Option String
  fault : Option DiskFault

namespace Disk

/-- A folder without files. -/
def empty : Disk := ⟨fun _ => none, none⟩

/-- A file with this text, or no file, under a name. -/
def put (d : Disk) (name : String) (text : Option String) : Disk :=
  { d with files := fun other => if other = name then text else d.files other }

/-- Write a file anew. -/
def write (d : Disk) (name text : String) : Except Error Unit × Disk :=
  match d.fault with
  | some .refused => (.error .io, d)
  | some (.cut n) => (.error .io, d.put name (some (String.ofList (text.toList.take n))))
  | some .stuck => (.ok (), d.put name (some text))
  | none => (.ok (), d.put name (some text))

/-- Let a file take the place of another one. -/
def move (d : Disk) (source target : String) : Except Error Unit × Disk :=
  match d.fault, d.files source with
  | some _, _ => (.error .io, d)
  | none, none => (.error .io, d)
  | none, some text => (.ok (), (d.put source none).put target (some text))

@[simp] theorem files_put_self (d : Disk) (name : String) (text : Option String) :
    (d.put name text).files name = text :=
  if_pos rfl

theorem files_put_of_ne (d : Disk) {name other : String} (h : other ≠ name)
    (text : Option String) : (d.put name text).files other = d.files other :=
  if_neg h

@[simp] theorem fault_put (d : Disk) (name : String) (text : Option String) :
    (d.put name text).fault = d.fault :=
  rfl

end Disk

end Guided
