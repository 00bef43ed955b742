/-
  Tests/Data.lean --- the random data that the tests of `src/main.c` write, and what they
  leave.
-/
import FlashFloppyTestbed.Disk.Ibm
import FlashFloppyTestbed.Rand

set_option autoImplicit false

namespace FlashFloppyTestbed

/-- `for (i = 0; i < n; i++) p[i] = rand()>>8;`: the bytes, and the seed behind them. -/
def randBytes : Nat → BitVec 32 → List Byte × BitVec 32
  | 0, seed => ([], seed)
  | n + 1, seed =>
    let r := randBytes n (rand seed)
    ((rand seed >>> 8).setWidth 8 :: r.1, r.2)

theorem length_randBytes (n : Nat) : ∀ seed, (randBytes n seed).1.length = n := by
  induction n with
  | zero => exact fun _ => rfl
  | succ n ih => exact fun seed => congrArg Nat.succ (ih (rand seed))

/-- `for (i = 0; i < n; i++) ((uint32_t*)p)[i] = rand();`: the bytes, and the seed behind
them. -/
def randWords : Nat → BitVec 32 → List Byte × BitVec 32
  | 0, seed => ([], seed)
  | n + 1, seed =>
    let v := rand seed
    let r := randWords n v
    (v.extractLsb' 0 8 :: v.extractLsb' 8 8 :: v.extractLsb' 16 8 :: v.extractLsb' 24 8 :: r.1, r.2)

theorem length_randWords (n : Nat) : ∀ seed, (randWords n seed).1.length = 4 * n := by
  induction n with
  | zero => exact fun _ => rfl
  | succ n ih =>
    intro seed
    rw [randWords]
    simp only [List.length_cons, ih]
    omega

/-- What a test leaves: the revolution, the seed of `rand`, and whether a `WARN_ON` has
fired, other than `floppy_read`'s on long flux. -/
structure TestResult where
  disk : Disk
  seed : BitVec 32
  warned : Bool

end FlashFloppyTestbed
