import Yfs.Hdfs.DeleteTree
import Yfs.Hdfs.PathWalk

/-! `PBDelete` on a stored tree: what is left of it when the answer is `false`. -/
namespace Yfs.Hdfs
open Yfs.Lib Yfs.Extent Yfs.Client

section
variable {files : Files} {tree : DirTree} {ino parent last : UInt64}

namespace DirTree

theorem AllStoredIn.mem {ok : Str → Prop} {l : List (Str × DirTree)} {e : Str × DirTree}
    (h : AllStoredIn files ok l) (he : e ∈ l) : e.2.StoredIn files ok := by
  induction l with
  | nil => cases he
  | cons a l ih =>
    rcases List.mem_cons.1 he with rfl | he
    · exact h.2.1
    · exact ih h.2.2 he

def at? : List Str → DirTree → Option DirTree
  | [], tree => some tree
  | c :: l, .dir _ es => (es.find? fun e => e.1 = cStr c).bind fun e => at? l e.2
  | _ :: _, .leaf _ => none

theorem AllClean.mem {l : List (Str × DirTree)} {e : Str × DirTree} (h : AllClean l) (he : e ∈ l) :
    e.2.Clean := by
  induction l with
  | nil => cases he
  | cons a l ih =>
    rcases List.mem_cons.1 he with rfl | he
    · exact h.2.1
    · exact ih h.2.2 he

end DirTree
end

namespace NameNode
section
variable {T σ : Type} {act : (c : Call) → σ → Reply c → σ → Prop} {s s' : σ}

end

section
variable {T : Type} {t : T} {w w' : World T} {files : Files} {src : Str} {ino parent a b : UInt64}

def lockedBoth (t : T) (lock : UInt64 → Option T) (a b : UInt64) : UInt64 → Option T :=
  Function.update (Function.update lock a (some t)) b (some t)

theorem lockedBoth_of_ne {lock : UInt64 → Option T} {id : UInt64} (ha : id ≠ a) (hb : id ≠ b) :
    lockedBoth t lock a b id = lock id := by
  rw [lockedBoth, Function.update_of_ne hb, Function.update_of_ne ha]

end
end NameNode

section
variable {T : Type} {t : T} {w : World T} {tree : DirTree} {path : Str} {ino parent : UInt64}

/-- The tree that `PBDelete` finds at a path, and the directory it was found in. -/
structure DeleteTarget (files : Files) (tree : DirTree) (path : Str) (sub : DirTree) (parent : UInt64) :
    Prop where
  found : DirTree.at? (names path) tree = some sub
  walk : resolveLast files.dir 1 1 (names path) = some (sub.ino, parent)
  stored : sub.StoredIn files fun name => semi ∉ name
  nodup : sub.inums.Nodup
  clean : tree.Clean → sub.Clean
  parent : names path = [] ∧ parent = sub.ino ∨ names path ≠ [] ∧ parent ∉ sub.inums

namespace DeleteTarget
variable {files : Files} {sub : DirTree}

theorem locks (h : DeleteTarget files tree path sub parent) {lock : UInt64 → Option T}
    (hfree : ∀ id, lock id = none) :
    ∀ id ∈ sub.descendants, NameNode.lockedBoth t lock sub.ino parent id = none := by
  intro id hid
  have hown : id ≠ sub.ino := fun heq => (List.nodup_cons.1 h.nodup).1 (heq ▸ hid)
  rw [NameNode.lockedBoth_of_ne hown, hfree]
  rcases h.parent with ⟨-, heq⟩ | ⟨-, hnot⟩
  · exact heq ▸ hown
  · exact fun heq => hnot (heq ▸ List.mem_cons_of_mem _ hid)

end DeleteTarget

end

end Yfs.Hdfs
