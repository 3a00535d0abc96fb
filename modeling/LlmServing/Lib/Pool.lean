import Mathlib.Algebra.GroupWithZero.Nat
import Mathlib.Data.List.Perm.Basic
import Mathlib.Data.List.Nodup
import Mathlib.Data.List.Pairwise

/-!
# A pool of resources

A free list and the holders' lists, which together are the whole pool in some order: nothing lost,
nothing held twice. Holders take from the front of the free list and give back at its end.
-/

namespace LlmServing.Lib

variable {ι : Type*} {pool free held : List ι} {holders front behind : List (List ι)}

def Partitioned (pool free : List ι) (holders : List (List ι)) : Prop :=
  (free ++ holders.flatten).Perm pool

namespace Partitioned

open scoped List

theorem start (pool : List ι) : Partitioned pool pool [] := by
  simp [Partitioned]

theorem take (n : Nat) (parts : Partitioned pool free (front ++ held :: behind)) :
    Partitioned pool (free.drop n) (front ++ (held ++ free.take n) :: behind) := by
  refine List.Perm.trans ?_ parts
  simp only [List.flatten_append, List.flatten_cons, List.append_assoc]
  calc free.drop n ++ (front.flatten ++ (held ++ (free.take n ++ behind.flatten)))
    _ ~ free.drop n ++ (front.flatten ++ (free.take n ++ (held ++ behind.flatten))) :=
        ((List.perm_append_comm_assoc _ _ _).append_left _).append_left _
    _ ~ free.drop n ++ (free.take n ++ (front.flatten ++ (held ++ behind.flatten))) :=
        (List.perm_append_comm_assoc _ _ _).append_left _
    _ ~ free.take n ++ (free.drop n ++ (front.flatten ++ (held ++ behind.flatten))) :=
        List.perm_append_comm_assoc _ _ _
    _ = free ++ (front.flatten ++ (held ++ behind.flatten)) := by
        rw [← List.append_assoc, List.take_append_drop]

theorem join (n : Nat) (parts : Partitioned pool free holders) :
    Partitioned pool (free.drop n) (holders ++ [free.take n]) := by
  have empty : Partitioned pool free (holders ++ [[]]) := by simpa [Partitioned] using parts
  simpa using empty.take n

theorem leave (parts : Partitioned pool free (front ++ held :: behind)) :
    Partitioned pool (free ++ held) (front ++ behind) := by
  refine List.Perm.trans ?_ parts
  simp only [List.flatten_append, List.flatten_cons, List.append_assoc]
  refine List.Perm.append_left _ ?_
  rw [← List.append_assoc, ← List.append_assoc]
  exact List.perm_append_comm.append_right _

theorem length_eq (parts : Partitioned pool free holders) :
    free.length + (holders.map List.length).sum = pool.length := by
  simpa using List.Perm.length_eq parts

theorem mem_pool (parts : Partitioned pool free holders) (member : held ∈ holders) {x : ι}
    (holds : x ∈ held) : x ∈ pool :=
  parts.subset (List.mem_append_right _ (List.mem_flatten_of_mem member holds))

theorem nodup_holders (parts : Partitioned pool free holders) (distinct : pool.Nodup) :
    holders.flatten.Nodup :=
  (parts.nodup_iff.mpr distinct).of_append_right

theorem nodup_held (parts : Partitioned pool free holders) (distinct : pool.Nodup)
    (member : held ∈ holders) : held.Nodup :=
  (parts.nodup_holders distinct).sublist (List.sublist_flatten_of_mem member)

theorem same_holder {α : Type*} {holding : α → List ι} {list : List α}
    (parts : Partitioned pool free (list.map holding)) (distinct : pool.Nodup) {a b : α}
    (member : a ∈ list) (member' : b ∈ list) {x : ι} (holds : x ∈ holding a)
    (holds' : x ∈ holding b) : a = b := by
  by_contra different
  have apart := (List.nodup_flatten.mp (parts.nodup_holders distinct)).2
  rw [List.pairwise_map] at apart
  have symmetric : Std.Symm fun a b => (holding a).Disjoint (holding b) :=
    ⟨fun _ _ disjoint _ left right => disjoint right left⟩
  exact apart.forall member member' different holds holds'

end Partitioned

end LlmServing.Lib
