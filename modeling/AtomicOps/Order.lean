/- Memory orders, and the two ways `atomic_ops.h` spells them.

   The public API takes a `MemoryOrder`. The GCC/Clang branch hands the
   builtins an integer code (`detail::to_gcc_order`); the MSVC compatibility
   shim receives such codes from legacy callers and maps them back
   (`mtk_map_gcc_order`), sending every code it does not list,
   `__ATOMIC_CONSUME` (1) among them, to `SeqCst`. The value-level model of the
   operations (`Register.lean`) does not depend on orders; the MSVC branch uses
   them only to place its compiler barriers (`Msvc.Barriers`). -/
namespace MtKahypar

/-- `enum class MemoryOrder`. -/
inductive MemoryOrder
  | relaxed
  | acquire
  | release
  | acqRel
  | seqCst
  deriving DecidableEq, Repr

/-! The `__ATOMIC_*` codes, as the shim defines them. -/

def atomicRelaxed : Int := 0
def atomicAcquire : Int := 2
def atomicRelease : Int := 3
def atomicAcqRel : Int := 4
def atomicSeqCst : Int := 5

/-- `detail::to_gcc_order` (GCC/Clang branch). -/
def toGccOrder : MemoryOrder → Int
  | .relaxed => atomicRelaxed
  | .acquire => atomicAcquire
  | .release => atomicRelease
  | .acqRel => atomicAcqRel
  | .seqCst => atomicSeqCst

/-- `mtk_map_gcc_order` (MSVC compatibility shim). -/
def mtkMapGccOrder (order : Int) : MemoryOrder :=
  if order = atomicRelaxed then .relaxed
  else if order = atomicAcquire then .acquire
  else if order = atomicRelease then .release
  else if order = atomicAcqRel then .acqRel
  else if order = atomicSeqCst then .seqCst
  else .seqCst

end MtKahypar
