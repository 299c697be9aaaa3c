import Mathlib

/-!
# Parameters (`param.h`)
-/

namespace Xv6

/-- A slot of `ptable.proc`, of which there are `NPROC`. -/
abbrev Pid := Fin 64

/-- Open files per process, `NOFILE`. -/
abbrev Fd := Fin 16

instance neZero64 : NeZero 64 := ⟨by decide⟩
instance neZero16 : NeZero 16 := ⟨by decide⟩

/-- A slot of `ftable.file`, of which there are `NFILE`. -/
abbrev Fid := Fin 100

/-- Slots of the inode cache, `NINODE`. -/
def ninode : ℕ := 50

def maxopblocks : ℕ := 10
def logsize : ℕ := maxopblocks * 3
def nbuf : ℕ := maxopblocks * 3

instance : NeZero nbuf := ⟨by decide⟩

end Xv6
