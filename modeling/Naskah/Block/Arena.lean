/-
  Arenas: buffers of code that are told apart by their places.  A buffer that is taken stays in its
  place and is empty.
-/
import Naskah.Assembly

namespace Naskah

/-- The place of a buffer in an arena. -/
structure BufferId where
  index : Nat
  deriving DecidableEq

/-- Buffers of code. -/
structure Arena where
  buffers : Array (List Asm) := #[]

namespace Arena

def size (a : Arena) : Nat :=
  a.buffers.size

/-- The code in a buffer. -/
def get (a : Arena) (id : BufferId) : List Asm :=
  a.buffers[id.index]?.getD []

/-- Makes a new buffer with code in it. -/
def alloc (a : Arena) (code : List Asm) : BufferId × Arena :=
  (⟨a.size⟩, ⟨a.buffers.push code⟩)

/-- Adds code to a buffer. -/
def extend (a : Arena) (id : BufferId) (code : List Asm) : Arena :=
  ⟨a.buffers.modify id.index (· ++ code)⟩

/-- Takes the code out of a buffer. -/
def take (a : Arena) (id : BufferId) : List Asm × Arena :=
  (a.get id, ⟨a.buffers.modify id.index fun _ => []⟩)

section
variable {a : Arena} {id id' : BufferId} {code : List Asm}

@[simp] theorem size_alloc : (a.alloc code).2.size = a.size + 1 := by
  simp [alloc, size]

@[simp] theorem size_extend : (a.extend id code).size = a.size := by
  simp [extend, size]

@[simp] theorem size_take : (a.take id).2.size = a.size := by
  simp [take, size]

theorem index_alloc : (a.alloc code).1.index = a.size :=
  rfl

theorem get_alloc : (a.alloc code).2.get (a.alloc code).1 = code := by
  simp [get, alloc, size]

theorem get_extend (h : id.index < a.size) : (a.extend id code).get id = a.get id ++ code := by
  rw [size] at h
  simp [get, extend, Array.getElem_modify, h]

theorem get_alloc_of_lt (h : id.index < a.size) : (a.alloc code).2.get id = a.get id := by
  rw [size] at h
  simp [get, alloc, Array.getElem?_push, Nat.ne_of_lt h]

theorem get_extend_of_ne (h : id' ≠ id) : (a.extend id code).get id' = a.get id' := by
  have hi : id.index ≠ id'.index := fun he => h (by cases id; cases id'; cases he; rfl)
  simp [get, extend, Array.getElem?_modify, hi]

theorem get_take_of_ne (h : id' ≠ id) : (a.take id).2.get id' = a.get id' := by
  have hi : id.index ≠ id'.index := fun he => h (by cases id; cases id'; cases he; rfl)
  simp [get, take, Array.getElem?_modify, hi]

end

end Arena

end Naskah
