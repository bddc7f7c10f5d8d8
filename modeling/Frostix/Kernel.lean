import Frostix.Lib.Machine32

/-! Status codes shared by the memory managers. Sizes and addresses are 32-bit
words held as naturals; `PAGE_SIZE` appears as the literal 4096. -/
namespace Frostix

/-- `kernel_status_t`: everything except `ok` is a negative error code. -/
inductive KernelStatus where
  | ok
  | error
  | invalidParam
  | outOfMemory
  | notImplemented
  | alreadyMapped
  deriving DecidableEq, Repr

/-- `PAGE_FLAG_PRESENT`. -/
def pageFlagPresent : Nat := 1

/-- `PAGE_FLAG_RW`. -/
def pageFlagRw : Nat := 2

/-- `PAGE_FLAG_GLOBAL`. -/
def pageFlagGlobal : Nat := 256

end Frostix
