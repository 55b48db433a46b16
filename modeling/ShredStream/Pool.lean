import ShredStream.Wire.Bytes

/-!
# The buffer pool (`src/pool.rs`)

A handle owns one buffer of the pool exclusively, so its bytes are kept with
the handle; the pool itself is its free list. `release` is what dropping a
handle does.
-/

namespace ShredStream

/-- `BUF_SIZE` (line 4). -/
def bufSize : ℕ := 2048

/-- `BufferHandle` (lines 14–18) together with the `len` bytes it gives access to. -/
structure BufferHandle where
  idx : ℕ
  bytes : Bytes
  deriving DecidableEq, Repr

/-- `ShredPool` (lines 6–9). The head of `free` is the top of the Rust stack. -/
structure ShredPool where
  capacity : ℕ
  free : List ℕ
  deriving DecidableEq, Repr

namespace ShredPool

/-- `ShredPool::new` (lines 21–31), for `0 < capacity ≤ u16::MAX`. -/
def new (capacity : ℕ) : ShredPool := { capacity, free := List.range capacity }

/-- `ShredPool::acquire` (lines 33–40): the index of the buffer taken. -/
def acquire (pool : ShredPool) : Option (ℕ × ShredPool) :=
  match pool.free with
  | [] => none
  | idx :: free => some (idx, { pool with free })

theorem acquire_new {capacity : ℕ} (h : 0 < capacity) :
    (new capacity).acquire = some (0, { capacity, free := List.range' 1 (capacity - 1) }) := by
  obtain ⟨n, rfl⟩ : ∃ n, capacity = n + 1 := ⟨capacity - 1, by omega⟩
  simp [new, acquire, List.range_eq_range', List.range'_succ]

/-- `ShredPool::release` (lines 42–44) of several buffers in turn. -/
def release (pool : ShredPool) (idxs : List ℕ) : ShredPool :=
  { pool with free := idxs.reverse ++ pool.free }

end ShredPool

end ShredStream
