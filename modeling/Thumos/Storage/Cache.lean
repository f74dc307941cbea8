import Thumos.Storage.Block

/-!
# The LRU block cache

The model of `cache.rs`.  `Disk` is a cache with the device behind it, and
the three public calls `read`, `write` and `flush` are programs over that
state.  A call that fails keeps what it did to the cache and to the device
before it failed.

The kernel is built in release mode, where `u64` arithmetic wraps.  Two
places in this file can wrap: the LRU counter, and the sector address
`block_num * SECTORS_PER_BLOCK`.
-/

namespace Thumos

open StateExcept

abbrev cacheEntries : Nat := 256

structure CacheEntry where
  blockNum : Nat
  data : Block
  dirty : Bool
  valid : Bool
  lruCounter : Nat

def CacheEntry.new : CacheEntry where
  blockNum := 0
  data := Block.zero
  dirty := false
  valid := false
  lruCounter := 0

structure BlockCache where
  entries : List CacheEntry
  counter : Nat

structure Disk where
  cache : BlockCache
  dev : Device

namespace BlockCache

def new : BlockCache where
  entries := List.replicate cacheEntries CacheEntry.new
  counter := 0

def entry (c : BlockCache) (idx : Nat) : CacheEntry := c.entries.getD idx CacheEntry.new

def position (p : CacheEntry → Bool) : List CacheEntry → Nat → Option Nat
  | [], _ => none
  | e :: es, i => bif p e then some i else position p es (i + 1)

def findEntry (c : BlockCache) (blockNum : Nat) : Option Nat :=
  position (fun e => e.valid && Nat.beq e.blockNum blockNum) c.entries 0

/-- The scan of `lru_victim`: a valid entry with a lower counter replaces the
victim. -/
def scanLru : List CacheEntry → Nat → Nat → Nat → Nat
  | [], _, victim, _ => victim
  | e :: es, i, victim, minCounter =>
    bif e.valid && Nat.blt e.lruCounter minCounter then scanLru es (i + 1) i e.lruCounter
    else scanLru es (i + 1) victim minCounter

def lruVictim (c : BlockCache) : Nat := scanLru c.entries 0 0 (u64Size - 1)

def modifyEntry (c : BlockCache) (idx : Nat) (f : CacheEntry → CacheEntry) : BlockCache :=
  { c with entries := c.entries.set idx (f (c.entry idx)) }

/-- Update entry `idx` with `f`, and `touch` it: stamp it as the most recently
used one. -/
def touchWith (c : BlockCache) (idx : Nat) (f : CacheEntry → CacheEntry) : BlockCache where
  entries := c.entries.set idx { f (c.entry idx) with lruCounter := (c.counter + 1) % u64Size }
  counter := (c.counter + 1) % u64Size

end BlockCache

/-- `block_num * SECTORS_PER_BLOCK`, which wraps. -/
def lbaOf (blockNum : Nat) : Nat := blockNum * sectorsPerBlock % u64Size

namespace Disk

def fresh (dev : Device) : Disk := ⟨BlockCache.new, dev⟩

abbrev M := EStateM BlockError Disk

def modifyCache (f : BlockCache → BlockCache) : M Unit :=
  modify fun d => { d with cache := f d.cache }

def writeBack (idx : Nat) : M Unit := do
  let d ← get
  let e := d.cache.entry idx
  let (r, dev) := d.dev.writeSectors (lbaOf e.blockNum) e.data
  set { d with dev := dev }
  liftResult r
  modifyCache fun c => c.modifyEntry idx fun e => { e with dirty := false }

/-- The eviction in `allocate_entry`: a dirty victim is written back before it
is dropped. -/
def evict (idx : Nat) : M Unit := do
  let d ← get
  (if (d.cache.entry idx).dirty then writeBack idx else pure ())
  modifyCache fun c => c.modifyEntry idx fun e => { e with dirty := false, valid := false }

/-- An invalid entry, or else the LRU entry after its dirty
data has been written back. -/
def allocateEntry : M Nat := do
  let d ← get
  match BlockCache.position (fun e => !e.valid) d.cache.entries 0 with
  | some idx => pure idx
  | none =>
    let idx := d.cache.lruVictim
    evict idx
    pure idx

/-- Fill entry `idx` from the device.  `read_sectors` reads straight into the
entry, so a failed read leaves its bytes there. -/
def fillEntry (idx blockNum : Nat) : M Unit := do
  let d ← get
  let (r, data, dev) := d.dev.readSectors (lbaOf blockNum) (d.cache.entry idx).data
  set { d with
    cache := d.cache.modifyEntry idx fun e => { e with data := data }
    dev := dev }
  liftResult r

def read (blockNum : Nat) : M Block := do
  let d ← get
  match d.cache.findEntry blockNum with
  | some idx =>
    modifyCache fun c => c.touchWith idx id
    pure (d.cache.entry idx).data
  | none =>
    let idx ← allocateEntry
    fillEntry idx blockNum
    modifyCache fun c => c.touchWith idx fun e =>
      { e with blockNum := blockNum, valid := true, dirty := false }
    let d ← get
    pure (d.cache.entry idx).data

def write (blockNum : Nat) (buf : Block) : M Unit := do
  let d ← get
  let idx ← (match d.cache.findEntry blockNum with
    | some idx => pure idx
    | none => allocateEntry)
  modifyCache fun c => c.touchWith idx fun e =>
    { e with data := buf, blockNum := blockNum, valid := true, dirty := true }

/-- One turn of the loop in `flush`, for entry `idx`.  A write-back that fails
is remembered, and the loop goes on. -/
def flushEntry (firstErr : Option BlockError) (e : CacheEntry × Nat) : M (Option BlockError) :=
  if e.1.valid && e.1.dirty then do
    let r ← attempt (writeBack e.2)
    match r with
    | .ok _ => pure firstErr
    | .error err => pure (firstErr <|> some err)
  else pure firstErr

/-- Write every dirty entry back, and return the first
error.  A turn of the loop touches its own entry only, so the entries can be
taken from the cache as it was at the start. -/
def flush : M Unit := do
  let d ← get
  let firstErr ← d.cache.entries.zipIdx.foldlM flushEntry none
  match firstErr with
  | some e => throw e
  | none => pure ()

end Disk

end Thumos
