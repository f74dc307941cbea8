import Thumos.Boot.Gpt

/-!
# The boot gate

`bootImageSource` finds the boot partition and `evaluateBootImage` verifies its image: the
payload, and a signature in the last 64 bytes.  An image in memory is split and
hashed at once.  A partition is read in runs of eight sectors, and each run goes
into the hash, into the signature, or is cut between the two.

SHA-512 and the Ed25519ph verification are parameters, with the one law of the
incremental hash: two updates are the update with both inputs.

The sizes are `u64` and wrap or saturate as in the source.  A partition of 2^55
sectors or more has more bytes than a `u64` counts.  The last run of its
sectors then looks like a run in the middle, and the signature stays zero.
-/

namespace Thumos

open LittleEndian Fields Gpt Vector Nat

inductive SecureBootError where
  | imageTooShort
  | invalidSignature
  | wrongPublicKey
  deriving DecidableEq

abbrev Signature := Vector UInt8 64
abbrev PublicKey := Vector UInt8 32

/-- `sha2::Sha512` and `ed25519_dalek`. -/
structure Ed25519ph where
  Hasher : Type
  Key : Type
  new : Hasher
  update : Hasher → List UInt8 → Hasher
  fromBytes : PublicKey → Option Key
  verifyPrehashedStrict : Key → Hasher → Signature → Bool
  update_nil : ∀ h, update h [] = h
  update_append : ∀ h a b, update (update h a) b = update h (a ++ b)

inductive BootImageSource where
  | present (image : List UInt8)
  | presentStreamed (dev : PartitionBlockDevice) (sectors : Nat)
  | unreadable
  | absent

inductive SecureBootDecision where
  | proceed (verified : Bool)
  | halt (error : SecureBootError)
  deriving DecidableEq

namespace SecureBoot

abbrev signatureLen : Nat := 64
abbrev minImageSize : Nat := signatureLen + 1
abbrev chunkSectors : Nat := 8

def bootName : List UInt8 := [98, 111, 111, 116]

def signatureOf (bytes : List UInt8) : Signature := Vector.ofFn fun i => bytes.getD i 0

section

variable (c : Ed25519ph) (bootPublicKey : PublicKey)

def splitImage (image : List UInt8) : Except SecureBootError (List UInt8 × Signature) :=
  if image.length < minImageSize then .error .imageTooShort
  else
    let splitAt := image.length - signatureLen
    .ok (image.take splitAt, signatureOf (image.drop splitAt))

def verifyCombinedImagePh (image : List UInt8) : Except SecureBootError Unit :=
  match splitImage image with
  | .error e => .error e
  | .ok (payload, sig) =>
    match c.fromBytes bootPublicKey with
    | none => .error .invalidSignature
    | some key =>
      if c.verifyPrehashedStrict key (c.update c.new payload) sig then .ok ()
      else .error .invalidSignature

/-- `signature[off..off + bytes.len()].copy_from_slice(bytes)`, which panics when the
bytes do not fit. -/
def copyInto (sig : Signature) (off : Nat) (bytes : List UInt8) : Option Signature :=
  if off + bytes.length ≤ signatureLen then some (copyAt sig off bytes) else none

/-- Where a run of the image goes: into the hash, into the signature, or both. -/
def absorb (payloadBytes chunkStart : Nat) (chunk : List UInt8) (prehash : c.Hasher)
    (sig : Signature) : Option (c.Hasher × Signature) :=
  let chunkEnd := (chunkStart + chunk.length) % u64Size
  if chunkEnd ≤ payloadBytes then some (c.update prehash chunk, sig)
  else if chunkStart ≥ payloadBytes then
    (copyInto sig (chunkStart - payloadBytes) chunk).map fun sig => (prehash, sig)
  else
    let cut := payloadBytes - chunkStart
    (copyInto sig 0 (chunk.drop cut)).map fun sig => (c.update prehash (chunk.take cut), sig)

/-- The loop of `verify_image_streamed`.  `none` is a panic. -/
def streamLoop (totalSectors payloadBytes : Nat) : Nat → PartitionBlockDevice → Nat → c.Hasher →
    Signature → Option (Except SecureBootError (c.Hasher × Signature)) × PartitionBlockDevice
  | 0, dev, _, prehash, sig => (some (.ok (prehash, sig)), dev)
  | fuel + 1, dev, lba, prehash, sig =>
    if lba < totalSectors then
      let take := min (totalSectors - lba) chunkSectors
      match dev.readSectors lba take with
      | (.error _, dev) => (some (.error .invalidSignature), dev)
      | (.ok chunk, dev) =>
        match absorb c payloadBytes (lba * sectorSize % u64Size) chunk prehash sig with
        | none => (none, dev)
        | some (prehash, sig) =>
          streamLoop totalSectors payloadBytes fuel dev (lba + take) prehash sig
    else (some (.ok (prehash, sig)), dev)

def totalBytes (totalSectors : Nat) : Nat := min (totalSectors * sectorSize) (u64Size - 1)

def verifyImageStreamed (dev : PartitionBlockDevice) (totalSectors : Nat) (publicKey : PublicKey) :
    Option (Except SecureBootError Unit) × PartitionBlockDevice :=
  if totalBytes totalSectors < minImageSize then (some (.error .imageTooShort), dev)
  else
    match c.fromBytes publicKey with
    | none => (some (.error .invalidSignature), dev)
    | some key =>
      match streamLoop c totalSectors (totalBytes totalSectors - signatureLen) totalSectors dev 0
        c.new (Vector.replicate 64 0) with
      | (none, dev) => (none, dev)
      | (some (.error e), dev) => (some (.error e), dev)
      | (some (.ok (prehash, sig)), dev) =>
        if c.verifyPrehashedStrict key prehash sig then (some (.ok ()), dev)
        else (some (.error .invalidSignature), dev)

def decisionFor : Except SecureBootError Unit → SecureBootDecision
  | .ok () => .proceed true
  | .error e => .halt e

/-- `none` is a panic.  The source is handed back with the reads it made. -/
def evaluateBootImage : BootImageSource → Option SecureBootDecision × BootImageSource
  | .present image =>
    (some (decisionFor (verifyCombinedImagePh c bootPublicKey image)), .present image)
  | .presentStreamed dev sectors =>
    let (result, dev) := verifyImageStreamed c dev sectors bootPublicKey
    (result.map decisionFor, .presentStreamed dev sectors)
  | .unreadable => (some (.halt .imageTooShort), .unreadable)
  | .absent => (some (.proceed false), .absent)

def bootImageSource (d : SectorDevice) : BootImageSource :=
  match Gpt.findPartition d bootName with
  | (.ok boot, d) => .presentStreamed ⟨d, boot.firstLba, boot.sectors⟩ boot.sectors
  | (.error _, _) => .unreadable

end

/-! ## The streamed image -/

section

variable {c : Ed25519ph} {p : PartitionBlockDevice} {n lba fuel : Nat} {prehash : c.Hasher}
  {sig : Signature} {publicKey : PublicKey} {bytes : List UInt8}

theorem copyAt_signature (h : bytes.length = signatureLen) :
    copyAt sig 0 bytes = signatureOf bytes := by
  refine ext_getElem? fun i hi => ?_
  simp only [signatureLen] at h
  rw [copyAt_getElem? hi, if_pos (by omega), getElem?_eq_getElem hi, signatureOf,
    getElem_ofFn, Nat.sub_zero]

theorem chunk_ends {len : Nat} (hn : n * 512 < u64Size) (hlen : lba * 512 + len ≤ n * 512) :
    lba * 512 % u64Size = lba * 512 ∧ (lba * 512 + len) % u64Size = lba * 512 + len :=
  ⟨mod_eq_of_lt (lt_of_le_of_lt (le_trans (le_add_right _ _) hlen) hn),
    mod_eq_of_lt (lt_of_le_of_lt hlen hn)⟩

theorem absorb_middle {chunk : List UInt8} {k : Nat} (hn : n * sectorSize < u64Size)
    (hchunk : chunk.length = k * sectorSize) (hlt : lba + k < n) :
    absorb c (n * sectorSize - signatureLen) (lba * sectorSize % u64Size) chunk prehash sig =
      some (c.update prehash chunk, sig) := by
  simp only [sectorSize, signatureLen] at *
  obtain ⟨hstart, hend⟩ := @chunk_ends n lba chunk.length hn (by omega)
  have hin : lba * 512 + chunk.length ≤ n * 512 - 64 := by omega
  simp only [absorb, hstart, hend, if_pos hin]

theorem absorb_last {chunk : List UInt8} (hn : n * sectorSize < u64Size) (hlba : lba < n)
    (hchunk : chunk.length = (n - lba) * sectorSize) :
    absorb c (n * sectorSize - signatureLen) (lba * sectorSize % u64Size) chunk prehash sig =
      some (c.update prehash (chunk.take (chunk.length - signatureLen)),
        signatureOf (chunk.drop (chunk.length - signatureLen))) := by
  simp only [sectorSize, signatureLen] at *
  have hcut : n * 512 - 64 - lba * 512 = chunk.length - 64 := by omega
  have hdrop : (chunk.drop (chunk.length - 64)).length = 64 := by
    rw [List.length_drop]
    omega
  obtain ⟨hstart, hend⟩ := @chunk_ends n lba chunk.length hn (by omega)
  have hout : ¬ lba * 512 + chunk.length ≤ n * 512 - 64 := by omega
  have hbefore : ¬ lba * 512 ≥ n * 512 - 64 := by omega
  have hfits : 0 + (chunk.drop (chunk.length - 64)).length ≤ 64 := by omega
  simp only [absorb, hstart, hend, if_neg hout, if_neg hbefore, hcut, copyInto, signatureLen,
    if_pos hfits, Option.map_some, copyAt_signature hdrop]

theorem streamLoop_end {payload : Nat} (h : n ≤ lba) :
    streamLoop c n payload fuel p lba prehash sig = (some (.ok (prehash, sig)), p) := by
  cases fuel with
  | zero => rfl
  | succ fuel => rw [streamLoop, if_neg (by omega)]

def rest (p : PartitionBlockDevice) (n lba : Nat) : List UInt8 :=
  p.inner.bytes (p.baseLba + lba) (n - lba)

theorem streamLoop_spec (hn : n * sectorSize < u64Size) (hp : p.sectorCount = n)
    (hfuel : n - lba ≤ fuel) (hlba : lba < n) : (p.inner.Readable (p.baseLba + lba) (n - lba) →
      (streamLoop c n (n * sectorSize - signatureLen) fuel p lba prehash sig).1 =
        some (.ok (c.update prehash ((rest p n lba).take ((n - lba) * sectorSize - signatureLen)),
          signatureOf ((rest p n lba).drop ((n - lba) * sectorSize - signatureLen))))) ∧
    (¬ p.inner.Readable (p.baseLba + lba) (n - lba) →
      (streamLoop c n (n * sectorSize - signatureLen) fuel p lba prehash sig).1 =
        some (.error .invalidSignature)) := by
  induction fuel generalizing p lba prehash sig with
  | zero => omega
  | succ fuel ih =>
    rw [streamLoop, if_pos hlba]
    dsimp only
    generalize htake : min (n - lba) chunkSectors = k
    have hpos : 0 < k := by
      rw [← htake]
      exact Nat.lt_min.mpr ⟨by omega, by decide⟩
    have hk : n - lba = k + (n - (lba + k)) := by omega
    generalize hr : p.readSectors lba k = r
    cases hr ▸ @PartitionBlockDevice.readStep p lba k (by omega) with
    | failed hbad =>
      rw [hk, SectorDevice.readable_add]
      exact ⟨fun hread => absurd hread.1 hbad, fun _ => rfl⟩
    | done hread =>
      have hlen := p.inner.length_bytes (p.baseLba + lba) k
      dsimp only
      by_cases hlast : lba + k = n
      · obtain rfl : k = n - lba := by omega
        rw [absorb_last hn hlba hlen]
        dsimp only
        rw [streamLoop_end (by omega), hlen]
        exact ⟨fun _ => rfl, fun hbad => absurd hread hbad⟩
      · have hlt : lba + k < n := by omega
        rw [absorb_middle hn hlen hlt]
        have hsplit : rest p n lba = p.inner.bytes (p.baseLba + lba) k ++ rest p n (lba + k) := by
          rw [rest, hk, SectorDevice.bytes_add, rest, Nat.add_assoc]
        have hsize : (n - lba) * sectorSize - signatureLen =
            (p.inner.bytes (p.baseLba + lba) k).length +
              ((n - (lba + k)) * sectorSize - signatureLen) := by
          simp only [sectorSize, signatureLen] at *
          omega
        rw [hsplit, hsize, List.take_length_add_append, List.drop_length_add_append,
          ← c.update_append, hk, SectorDevice.readable_add, Nat.add_assoc]
        obtain ⟨hgood, hfail⟩ := @ih
          { p with inner := { p.inner with reads := p.inner.reads ++ [(p.baseLba + lba, k)] } }
          (lba + k) (c.update prehash (p.inner.bytes (p.baseLba + lba) k)) sig hp (by omega) hlt
        exact ⟨fun h => hgood h.2, fun hbad => hfail fun h => hbad ⟨hread, h⟩⟩

theorem streamLoop_reads {payload : Nat} (hp : p.sectorCount = n) :
    ∃ reads, (streamLoop c n payload fuel p lba prehash sig).2 =
        { p with inner := { p.inner with reads := p.inner.reads ++ reads } } ∧
      ∀ r ∈ reads, p.baseLba ≤ r.1 ∧ r.1 + r.2 ≤ p.baseLba + n := by
  have hnone : { p with inner := { p.inner with reads := p.inner.reads ++ [] } } = p := by
    rw [List.append_nil]
  induction fuel generalizing p lba prehash sig with
  | zero => exact ⟨[], hnone.symm, nofun⟩
  | succ fuel ih =>
    rw [streamLoop]
    split
    case isFalse => exact ⟨[], hnone.symm, nofun⟩
    dsimp only
    generalize htake : min (n - lba) chunkSectors = k
    have hrun : ∀ r ∈ [(p.baseLba + lba, k)], p.baseLba ≤ r.1 ∧ r.1 + r.2 ≤ p.baseLba + n := by
      intro r hr
      rw [List.mem_singleton.mp hr]
      omega
    generalize hr : p.readSectors lba k = r
    cases hr ▸ @PartitionBlockDevice.readStep p lba k (by omega) with
    | failed _ e reads hreads =>
      refine ⟨reads, rfl, ?_⟩
      rcases hreads with rfl | rfl
      · exact nofun
      · exact hrun
    | done =>
      dsimp only
      split
      · exact ⟨_, rfl, hrun⟩
      rename_i prehash' sig' _
      obtain ⟨reads, heq, hin⟩ := @ih
        { p with inner := { p.inner with reads := p.inner.reads ++ [(p.baseLba + lba, k)] } }
        (lba + k) prehash' sig' hp (by rw [List.append_nil])
      refine ⟨[(p.baseLba + lba, k)] ++ reads, ?_, ?_⟩
      · rw [heq, ← List.append_assoc]
      · intro r hr
        rcases List.mem_append.mp hr with h | h
        · exact hrun r h
        · exact hin r h

/-! ## The verification -/

def SignedBy (c : Ed25519ph) (publicKey : PublicKey) (bytes : List UInt8) : Prop :=
  ∃ payload sig key, bytes = payload ++ Vector.toList sig ∧ c.fromBytes publicKey = some key ∧
    c.verifyPrehashedStrict key (c.update c.new payload) sig = true

theorem signatureOf_toList (sig : Signature) : signatureOf sig.toList = sig := by
  rw [← @copyAt_signature (replicate 64 0) sig.toList length_toList]
  refine ext_getElem? fun i hi => ?_
  rw [copyAt_getElem? hi, if_pos (by rw [length_toList]; omega), Nat.sub_zero,
    List.getD_eq_getElem?_getD, getElem?_toList, getElem?_eq_getElem hi]
  rfl

theorem toList_signatureOf (h : bytes.length = signatureLen) :
    (signatureOf bytes).toList = bytes := by
  refine List.ext_getElem? fun i => ?_
  by_cases hi : i < 64
  · rw [getElem?_toList, getElem?_eq_getElem hi, signatureOf, getElem_ofFn,
      List.getD_eq_getElem?_getD, List.getElem?_eq_getElem (by rw [h]; exact hi)]
    rfl
  · rw [List.getElem?_eq_none (by rw [length_toList]; omega),
      List.getElem?_eq_none (by rw [h]; exact not_lt.mp hi)]

theorem signedBy_iff (h : signatureLen ≤ bytes.length) :
    SignedBy c publicKey bytes ↔ ∃ key, c.fromBytes publicKey = some key ∧
      c.verifyPrehashedStrict key (c.update c.new (bytes.take (bytes.length - signatureLen)))
        (signatureOf (bytes.drop (bytes.length - signatureLen))) = true := by
  constructor
  · rintro ⟨payload, sig, key, rfl, hkey, hverify⟩
    have hlen : (payload ++ sig.toList).length - signatureLen = payload.length := by
      rw [List.length_append, length_toList, Nat.add_sub_cancel]
    rw [hlen, List.take_left, List.drop_left, signatureOf_toList]
    exact ⟨key, hkey, hverify⟩
  · rintro ⟨key, hkey, hverify⟩
    refine ⟨_, _, key, ?_, hkey, hverify⟩
    rw [toList_signatureOf (by rw [List.length_drop]; omega), List.take_append_drop]

theorem verifyCombinedImagePh_ok_iff {image : List UInt8} (h : minImageSize ≤ image.length) :
    verifyCombinedImagePh c publicKey image = .ok () ↔ SignedBy c publicKey image := by
  have hlen : signatureLen ≤ image.length := le_trans (by decide) h
  rw [signedBy_iff hlen, verifyCombinedImagePh, splitImage, if_neg (not_lt.mpr h)]
  cases hkey : c.fromBytes publicKey with
  | none => simp
  | some key =>
    simp only [Option.some.injEq, exists_eq_left']
    split
    · rename_i hverify
      exact ⟨fun _ => hverify, fun _ => rfl⟩
    · rename_i hverify
      exact ⟨nofun, fun h => absurd h hverify⟩

theorem totalBytes_of_lt (hn : n * sectorSize < u64Size) : totalBytes n = n * sectorSize :=
  min_eq_left (le_sub_one_of_lt hn)

theorem verifyImageStreamed_ok_iff (hn : n * sectorSize < u64Size) (hp : p.sectorCount = n)
    (hpos : 0 < n) : (verifyImageStreamed c p n publicKey).1 = some (.ok ()) ↔
      p.inner.Readable p.baseLba n ∧ SignedBy c publicKey (p.inner.bytes p.baseLba n) := by
  have hlen := p.inner.length_bytes p.baseLba n
  have hsize : sectorSize ≤ n * sectorSize := Nat.le_mul_of_pos_left _ hpos
  have hlong : ¬ n * sectorSize < minImageSize :=
    not_lt.mpr (le_trans (by decide) hsize)
  have hsigned := @signedBy_iff c publicKey (p.inner.bytes p.baseLba n)
    (by rw [hlen]; exact le_trans (by decide) hsize)
  rw [hsigned, hlen, verifyImageStreamed, totalBytes_of_lt hn, if_neg hlong]
  cases hkey : c.fromBytes publicKey with
  | none => simp
  | some key =>
    simp only [Option.some.injEq, exists_eq_left']
    generalize hr : streamLoop c n (n * sectorSize - signatureLen) n p 0 c.new
      (replicate 64 0) = r
    by_cases hread : p.inner.Readable p.baseLba n
    · have hloop := congrArg Prod.fst hr
      rw [(streamLoop_spec hn hp (sub_le n 0) hpos).1 hread] at hloop
      obtain ⟨result, p'⟩ := r
      subst hloop
      dsimp only
      split
      · rename_i hverify
        exact ⟨fun _ => ⟨hread, hverify⟩, fun _ => rfl⟩
      · rename_i hverify
        exact ⟨nofun, fun h => absurd h.2 hverify⟩
    · have hloop := congrArg Prod.fst hr
      rw [(streamLoop_spec hn hp (sub_le n 0) hpos).2 hread] at hloop
      obtain ⟨result, p'⟩ := r
      subst hloop
      exact ⟨nofun, fun h => absurd h.1 hread⟩

def readsOf : BootImageSource → List (Nat × Nat)
  | .presentStreamed dev _ => dev.inner.reads
  | _ => []

theorem verifyImageStreamed_reads (hp : p.sectorCount = n) :
    ∃ reads, (verifyImageStreamed c p n publicKey).2.inner.reads = p.inner.reads ++ reads ∧
      ∀ r ∈ reads, p.baseLba ≤ r.1 ∧ r.1 + r.2 ≤ p.baseLba + n := by
  have hnone : p.inner.reads = p.inner.reads ++ [] := (List.append_nil _).symm
  rw [verifyImageStreamed]
  split
  · exact ⟨[], hnone, nofun⟩
  split
  · exact ⟨[], hnone, nofun⟩
  obtain ⟨reads, heq, hin⟩ := @streamLoop_reads c p n 0 n c.new (replicate 64 0)
    (totalBytes n - signatureLen) hp
  have hreads := congrArg (fun q : PartitionBlockDevice => q.inner.reads) heq
  refine ⟨reads, ?_, hin⟩
  split
  · rename_i hloop
    rwa [hloop] at hreads
  · rename_i hloop
    rwa [hloop] at hreads
  · rename_i hloop
    rw [hloop] at hreads
    split
    · exact hreads
    · exact hreads

/-- What the gate verifies: a boot partition that can be read, with a signature at its
end. -/
structure BootVerified (c : Ed25519ph) (publicKey : PublicKey) (d : SectorDevice)
    (firstLba lastLba : Nat) : Prop where
  named : Gpt.FirstNamed d bootName firstLba lastLba
  forward : firstLba ≤ lastLba
  inside : lastLba < d.sectorCount
  readable : d.Readable firstLba (lastLba - firstLba + 1)
  signed : SignedBy c publicKey (d.bytes firstLba (lastLba - firstLba + 1))

theorem bootImageSource_cases (d : SectorDevice) :
    (∃ info, findPartition d bootName = (.ok info, afterReads d) ∧
      bootImageSource d =
        .presentStreamed ⟨afterReads d, info.firstLba, info.sectors⟩ info.sectors) ∨
    (∃ e d', findPartition d bootName = (.error e, d')) ∧ bootImageSource d = .unreadable := by
  rw [bootImageSource]
  generalize hr : findPartition d bootName = r
  obtain ⟨result, d'⟩ := r
  cases result with
  | error e => exact .inr ⟨⟨e, d', rfl⟩, rfl⟩
  | ok info =>
    obtain ⟨hs, hc, hname⟩ := supported_of_ok hr
    rw [findPartition_of_supported hs hc hname] at hr
    obtain rfl := congrArg Prod.snd hr
    exact .inl ⟨info, rfl, rfl⟩

theorem decisionFor_eq_proceed {result : Except SecureBootError Unit} :
    decisionFor result = .proceed true ↔ result = .ok () := by
  cases result with
  | ok => exact ⟨fun _ => rfl, fun _ => rfl⟩
  | error e => exact ⟨nofun, nofun⟩

theorem evaluate_streamed_iff (hn : n * sectorSize < u64Size) (hp : p.sectorCount = n)
    (hpos : 0 < n) :
    (evaluateBootImage c publicKey (.presentStreamed p n)).1 = some (.proceed true) ↔
      p.inner.Readable p.baseLba n ∧ SignedBy c publicKey (p.inner.bytes p.baseLba n) := by
  rw [← verifyImageStreamed_ok_iff hn hp hpos, evaluateBootImage]
  dsimp only
  generalize (verifyImageStreamed c p n publicKey).1 = result
  cases result with
  | none => exact ⟨nofun, nofun⟩
  | some result =>
    rw [Option.map_some, Option.some_inj, Option.some_inj]
    exact decisionFor_eq_proceed

theorem evaluate_present_of_signed {image : List UInt8} (hlen : minImageSize ≤ image.length)
    (h : SignedBy c publicKey image) :
    (evaluateBootImage c publicKey (.present image)).1 = some (.proceed true) := by
  rw [evaluateBootImage, (verifyCombinedImagePh_ok_iff hlen).mpr h]
  rfl

/-- The gate proceeds with a verified image exactly when the table is one that the
parser takes, its CRCs match, and the boot partition is a readable extent with a
signature at its end. -/
theorem proceed_iff {d : SectorDevice}
    (hsmall : ∀ firstLba lastLba, Gpt.FirstNamed d bootName firstLba lastLba →
      (lastLba - firstLba + 1) * sectorSize < u64Size) :
    (evaluateBootImage c publicKey (bootImageSource d)).1 = some (.proceed true) ↔
      Gpt.Supported d ∧ Gpt.CrcsMatch d ∧
        ∃ firstLba lastLba, BootVerified c publicKey d firstLba lastLba := by
  rcases bootImageSource_cases d with ⟨info, hfind, hsource⟩ | ⟨⟨e, d', hfind⟩, hsource⟩
  · obtain ⟨hs, hc, hnamed, hforward, -⟩ := (findPartition_ok_iff (by decide)).mp
      ⟨info, _, hfind, rfl, rfl⟩
    have heval := @evaluate_streamed_iff c ⟨afterReads d, info.firstLba, info.sectors⟩
      info.sectors publicKey (hsmall _ _ hnamed) rfl (succ_pos _)
    rw [hsource, heval]
    constructor
    · rintro ⟨hread, hsigned⟩
      refine ⟨hs, hc, info.firstLba, info.lastLba, hnamed, hforward, ?_, hread, hsigned⟩
      have hfits : info.firstLba + (info.lastLba - info.firstLba + 1) ≤ d.sectorCount := hread.1
      omega
    · rintro ⟨-, -, firstLba, lastLba, hv⟩
      obtain ⟨rfl, rfl⟩ := hnamed.unique hv.named
      exact ⟨hv.readable, hv.signed⟩
  · rw [hsource]
    constructor
    · intro h
      cases h
    · rintro ⟨hs, hc, firstLba, lastLba, hv⟩
      have hlt := d.sectorCount_lt
      have hinside := hv.inside
      obtain ⟨info, d'', hok, -⟩ := (findPartition_ok_iff (by decide)).mpr
        ⟨hs, hc, hv.named, hv.forward, by omega⟩
      rw [hfind] at hok
      cases hok

theorem evaluate_reads (c : Ed25519ph) (publicKey : PublicKey) (d : SectorDevice) :
    ∃ reads, readsOf (evaluateBootImage c publicKey (bootImageSource d)).2 =
        readsOf (bootImageSource d) ++ reads ∧
      ∀ r ∈ reads, ∃ firstLba lastLba, Gpt.FirstNamed d bootName firstLba lastLba ∧
        firstLba ≤ r.1 ∧ r.1 + r.2 ≤ lastLba + 1 := by
  rcases bootImageSource_cases d with ⟨info, hfind, hsource⟩ | ⟨-, hsource⟩
  · obtain ⟨-, -, hnamed, hforward, -⟩ := (findPartition_ok_iff (by decide)).mp
      ⟨info, _, hfind, rfl, rfl⟩
    obtain ⟨reads, heq, hin⟩ := @verifyImageStreamed_reads c
      ⟨afterReads d, info.firstLba, info.sectors⟩ info.sectors publicKey rfl
    rw [hsource]
    refine ⟨reads, heq, fun r hr => ⟨info.firstLba, info.lastLba, hnamed, (hin r hr).1, ?_⟩⟩
    have hend : r.1 + r.2 ≤ info.firstLba + (info.lastLba - info.firstLba + 1) := (hin r hr).2
    omega
  · rw [hsource]
    exact ⟨[], rfl, nofun⟩

/-- The gate verifies exactly the boot partition.  The image in memory is decided in the
same way, and the streamed verification reads no other sector. -/
theorem boot_gate_exact (c : Ed25519ph) (publicKey : PublicKey) (d : SectorDevice)
    (hsmall : ∀ firstLba lastLba, Gpt.FirstNamed d bootName firstLba lastLba →
      (lastLba - firstLba + 1) * sectorSize < u64Size) :
    ((evaluateBootImage c publicKey (bootImageSource d)).1 = some (.proceed true) ↔
      Gpt.Supported d ∧ Gpt.CrcsMatch d ∧
        ∃ firstLba lastLba, BootVerified c publicKey d firstLba lastLba) ∧
    (∀ firstLba lastLba, BootVerified c publicKey d firstLba lastLba →
      (evaluateBootImage c publicKey
        (.present (d.bytes firstLba (lastLba - firstLba + 1)))).1 = some (.proceed true)) ∧
    ∃ reads, readsOf (evaluateBootImage c publicKey (bootImageSource d)).2 =
        readsOf (bootImageSource d) ++ reads ∧
      ∀ r ∈ reads, ∃ firstLba lastLba, Gpt.FirstNamed d bootName firstLba lastLba ∧
        firstLba ≤ r.1 ∧ r.1 + r.2 ≤ lastLba + 1 := by
  refine ⟨proceed_iff hsmall, fun firstLba lastLba hv => ?_, evaluate_reads c publicKey d⟩
  refine evaluate_present_of_signed ?_ hv.signed
  rw [SectorDevice.length_bytes]
  exact le_trans (by decide) (Nat.le_mul_of_pos_left sectorSize (succ_pos _))

end

/-! ## Samples -/

def fillCrc (header : Sector) : Sector := copyAt header 16 (leBytes 4 (Gpt.headerCrc header).toNat)

def sampleHeader (size : Nat) (table : List UInt8) : Sector :=
  fillCrc (copyAt (copyAt (Vector.replicate sectorSize 0) 0 (Gpt.efiPart ++ encode [(4, 0x10000),
    (4, 92), (4, 0), (4, 0), (8, 1), (8, 0), (8, 0), (8, 0), (8, 0), (8, 0), (8, 2), (4, 1),
    (4, size)])) 88 (leBytes 4 (Gpt.crc32 table).toNat))

def sampleEntry (firstLba lastLba : Nat) : List UInt8 :=
  List.replicate 16 1 ++ List.replicate 16 2 ++ encode [(8, firstLba), (8, lastLba), (8, 0)] ++
    Gpt.nameUtf16 bootName

def sampleDisk (sectorCount : Nat) (h : sectorCount < u64Size) (size firstLba lastLba : Nat)
    (others : Nat → Sector) : SectorDevice where
  sectorCount := sectorCount
  sectorCount_lt := h
  sectors lba :=
    if lba = 1 then
      sampleHeader size (sampleEntry firstLba lastLba ++ List.replicate (size - 128) 0)
    else if lba = 2 then copyAt (Vector.replicate sectorSize 0) 0 (sampleEntry firstLba lastLba)
    else others lba
  readError _ := none
  writeError _ := none
  reads := []

def samplePayload : List UInt8 := List.replicate 448 90

def sampleKey : PublicKey := #v[236, 23, 43, 147, 173, 94, 86, 59, 244, 147, 44, 112, 225, 36, 80,
  52, 195, 84, 103, 239, 46, 253, 77, 100, 235, 248, 25, 104, 52, 103, 226, 191]

/-- The Ed25519ph signature of `samplePayload` under `sampleKey`. -/
def sampleSignature : Signature := #v[208, 57, 95, 229, 158, 140, 163, 181, 91, 149, 103, 150, 104,
  126, 128, 39, 223, 139, 100, 9, 223, 167, 250, 33, 167, 229, 8, 225, 193, 89, 122, 145, 90, 127,
  235, 232, 180, 107, 209, 224, 231, 140, 134, 167, 224, 46, 54, 122, 225, 23, 119, 163, 40, 156,
  222, 135, 34, 189, 146, 29, 90, 119, 168, 11]

def sampleImage : Sector :=
  copyAt (Vector.replicate sectorSize 0) 0 (samplePayload ++ sampleSignature.toList)

def oneKey (key : PublicKey) (accepts : List UInt8 → Signature → Bool) : Ed25519ph where
  Hasher := List UInt8
  Key := Unit
  new := []
  update := (· ++ ·)
  fromBytes bytes := if bytes = key then some () else none
  verifyPrehashedStrict _ := accepts
  update_nil := List.append_nil
  update_append := List.append_assoc

theorem oneKey_fromBytes (key : PublicKey) (accepts : List UInt8 → Signature → Bool) :
    (oneKey key accepts).fromBytes key = some () := if_pos rfl

def sampleScheme : Ed25519ph :=
  oneKey sampleKey fun payload sig => payload == samplePayload && sig == sampleSignature

def sampleDevice : SectorDevice := sampleDisk 4 (by decide) 128 3 3 fun _ => sampleImage

def wideDevice : SectorDevice := sampleDisk 5 (by decide) 1024 4 4 fun lba =>
  if lba = 4 then sampleImage else Vector.replicate sectorSize 0

def hugeDevice : SectorDevice := sampleDisk (2 ^ 60) (by decide) 128 3 (2 ^ 55 + 2) fun lba =>
  if lba = 2 ^ 55 + 2 then Vector.replicate sectorSize 1 else Vector.replicate sectorSize 0

def onesScheme : Ed25519ph := oneKey sampleKey fun _ sig => sig == Vector.replicate 64 1

def Tabled (d : SectorDevice) (firstLba lastLba : Nat) : Prop :=
  0 < Gpt.entryCount (Gpt.header d) ∧ Gpt.entryMatches bootName (Gpt.entry d 0) = true ∧
    firstLba = Gpt.le64 (Gpt.entry d 0) 32 ∧ lastLba = Gpt.le64 (Gpt.entry d 0) 40

instance (d : SectorDevice) (firstLba lastLba : Nat) : Decidable (Tabled d firstLba lastLba) :=
  inferInstanceAs (Decidable (_ ∧ _))

theorem Tabled.firstNamed {d : SectorDevice} {firstLba lastLba : Nat}
    (h : Tabled d firstLba lastLba) : Gpt.FirstNamed d bootName firstLba lastLba :=
  ⟨0, h.1, h.2.1, nofun, h.2.2⟩

def Headed (d : SectorDevice) : Prop :=
  slice (Gpt.header d) 0 8 = Gpt.efiPart ∧
    (92 ≤ Gpt.headerSize (Gpt.header d) ∧ Gpt.headerSize (Gpt.header d) ≤ sectorSize) ∧
    (0 < Gpt.entryCount (Gpt.header d) ∧ Gpt.entryCount (Gpt.header d) ≤ Gpt.maxEntries) ∧
    (128 ≤ Gpt.entrySize (Gpt.header d) ∧ Gpt.entrySize (Gpt.header d) ≤ sectorSize ∧
      Gpt.entrySize (Gpt.header d) % 8 = 0) ∧
    Gpt.entriesSectors (Gpt.header d) ≤ 32 ∧ 1 + 1 ≤ d.sectorCount ∧
    Gpt.entriesLba (Gpt.header d) + Gpt.entriesSectors (Gpt.header d) ≤ d.sectorCount

instance (d : SectorDevice) : Decidable (Headed d) := inferInstanceAs (Decidable (_ ∧ _))

theorem Headed.supported {d : SectorDevice} (h : Headed d) (hread : ∀ lba, d.readError lba = none) :
    Gpt.Supported d := by
  obtain ⟨hsignature, hsize, hcount, hentry, hsectors, hheader, htable⟩ := h
  exact ⟨⟨hheader, fun _ _ => hread _⟩, hsignature, hsize, hcount, hentry, hsectors,
    ⟨htable, fun _ _ => hread _⟩⟩

/-! The samples are evaluated once. -/

theorem tabled_samples : Tabled sampleDevice 3 3 ∧ Tabled wideDevice 4 4 ∧
    Tabled hugeDevice 3 (2 ^ 55 + 2) := by
  decide +kernel

theorem crcsMatch_samples :
    Gpt.CrcsMatch sampleDevice ∧ Gpt.CrcsMatch wideDevice ∧ Gpt.CrcsMatch hugeDevice := by
  refine ⟨⟨?_, ?_⟩, ⟨?_, ?_⟩, ?_, ?_⟩ <;> decide +kernel

theorem headed_samples : Headed sampleDevice ∧ Headed hugeDevice ∧
    ¬entrySize (header wideDevice) ≤ sectorSize := by
  decide +kernel

theorem images_samples : (sampleDevice.bytes 3 1 = samplePayload ++ sampleSignature.toList ∧
      wideDevice.bytes 4 1 = samplePayload ++ sampleSignature.toList ∧
      hugeDevice.bytes (3 + (2 ^ 55 - 1)) 1 =
        List.replicate 448 1 ++ (replicate 64 1 : Signature).toList) ∧
    sampleScheme.verifyPrehashedStrict () (sampleScheme.update sampleScheme.new samplePayload)
      sampleSignature = true ∧ ((replicate 64 0 : Signature) == replicate 64 1) = false := by
  decide +kernel

theorem signedBy_sample {bytes : List UInt8} (h : bytes = samplePayload ++ sampleSignature.toList) :
    SignedBy sampleScheme sampleKey bytes :=
  ⟨samplePayload, sampleSignature, (), h, oneKey_fromBytes _ _, images_samples.2.1⟩

theorem boot_gate_exact_sample :
    (evaluateBootImage sampleScheme sampleKey (bootImageSource sampleDevice)).1 =
      some (.proceed true) := by
  have hnamed := tabled_samples.1.firstNamed
  have hgate := boot_gate_exact sampleScheme sampleKey sampleDevice
    fun firstLba lastLba hother => by
    obtain ⟨rfl, rfl⟩ := hother.unique hnamed
    decide
  exact hgate.1.mpr ⟨headed_samples.1.supported fun _ => rfl, crcsMatch_samples.1,
    3, 3, hnamed, by decide, by decide, ⟨by decide, fun _ _ => rfl⟩,
    signedBy_sample images_samples.1.1⟩

/-! ## What the gate refuses -/

section

variable {c : Ed25519ph} {p : PartitionBlockDevice} {n lba fuel : Nat} {prehash : c.Hasher}
  {sig : Signature}

/-- With 2^55 sectors every run looks like payload, the last one too: its end is 2^64,
which wraps to zero. -/
theorem streamLoop_saturated (hn : n = 2 ^ 55) (hp : p.sectorCount = n) (halign : lba % 8 = 0)
    (hread : p.inner.Readable (p.baseLba + lba) (n - lba)) :
    ∃ prehash', (streamLoop c n (2 ^ 64 - 65) fuel p lba prehash sig).1 =
      some (.ok (prehash', sig)) := by
  induction fuel generalizing p lba prehash with
  | zero => exact ⟨prehash, rfl⟩
  | succ fuel ih =>
    by_cases hlba : lba < n
    · rw [streamLoop, if_pos hlba]
      dsimp only
      have htake : min (n - lba) chunkSectors = 8 := by
        simp only [chunkSectors]
        omega
      have hk : n - lba = 8 + (n - (lba + 8)) := by omega
      rw [hk, SectorDevice.readable_add, Nat.add_assoc] at hread
      rw [htake]
      generalize hr : p.readSectors lba 8 = r
      cases hr ▸ @PartitionBlockDevice.readStep p lba 8 (by omega) with
      | failed hbad => exact absurd hread.1 hbad
      | done =>
        have hlen : (p.inner.bytes (p.baseLba + lba) 8).length = 4096 :=
          p.inner.length_bytes (p.baseLba + lba) 8
        have hend : (lba * 512 % 2 ^ 64 + 4096) % 2 ^ 64 ≤ 2 ^ 64 - 65 := by omega
        have habsorb : absorb c (2 ^ 64 - 65) (lba * sectorSize % u64Size)
            (p.inner.bytes (p.baseLba + lba) 8) prehash sig =
            some (c.update prehash (p.inner.bytes (p.baseLba + lba) 8), sig) := by
          rw [absorb, hlen]
          exact if_pos hend
        dsimp only
        rw [habsorb]
        exact ih hp (by omega) hread.2
    · exact ⟨prehash, by rw [streamLoop_end (by omega)]⟩

theorem evaluate_saturated {publicKey : PublicKey} {key : c.Key} (hn : n = 2 ^ 55)
    (hp : p.sectorCount = n) (hread : p.inner.Readable p.baseLba n)
    (hkey : c.fromBytes publicKey = some key)
    (hzero : ∀ h, c.verifyPrehashedStrict key h (replicate 64 0) = false) :
    (evaluateBootImage c publicKey (.presentStreamed p n)).1 = some (.halt .invalidSignature) := by
  have htotal : totalBytes n = 2 ^ 64 - 1 := by
    rw [hn]
    decide
  have hpayload : 2 ^ 64 - 1 - signatureLen = 2 ^ 64 - 65 := by decide
  obtain ⟨prehash, hfst⟩ := @streamLoop_saturated c p n 0 n c.new (replicate 64 0) hn hp rfl
    hread
  rw [evaluateBootImage, verifyImageStreamed, htotal, hpayload, if_neg (by decide), hkey]
  generalize streamLoop c n (2 ^ 64 - 65) n p 0 c.new (replicate 64 0) = r at *
  obtain ⟨result, p'⟩ := r
  subst hfst
  dsimp only
  rw [if_neg (by rw [hzero]; decide)]
  rfl

end

theorem firstNamed_huge : Gpt.FirstNamed hugeDevice bootName 3 (2 ^ 55 + 2) :=
  tabled_samples.2.2.firstNamed

theorem supported_huge : Gpt.Supported hugeDevice := headed_samples.2.1.supported fun _ => rfl

theorem bootVerified_huge : BootVerified onesScheme sampleKey hugeDevice 3 (2 ^ 55 + 2) := by
  refine ⟨firstNamed_huge, by decide, by decide, ⟨by decide, fun _ _ => rfl⟩, ?_⟩
  have hlast := images_samples.1.2.2
  have hcount : 2 ^ 55 + 2 - 3 + 1 = (2 ^ 55 - 1) + 1 := by decide
  refine ⟨hugeDevice.bytes 3 (2 ^ 55 - 1) ++ List.replicate 448 1, replicate 64 1, (), ?_,
    oneKey_fromBytes _ _, rfl⟩
  rw [hcount, SectorDevice.bytes_add, hlast, List.append_assoc]

theorem halt_huge : (evaluateBootImage onesScheme sampleKey (bootImageSource hugeDevice)).1 =
    some (.halt .invalidSignature) := by
  rcases bootImageSource_cases hugeDevice with ⟨info, hfind, hsource⟩ | ⟨⟨e, d', hfind⟩, -⟩
  · obtain ⟨-, -, hnamed, -⟩ := (findPartition_ok_iff (by decide)).mp ⟨info, _, hfind, rfl, rfl⟩
    obtain ⟨hfirst, hlast⟩ := hnamed.unique firstNamed_huge
    have hsectors : info.sectors = 2 ^ 55 := by
      rw [PartitionInfo.sectors, hfirst, hlast]
      decide
    have hzero (h : onesScheme.Hasher) :
        onesScheme.verifyPrehashedStrict () h (replicate 64 0) = false :=
      images_samples.2.2
    have hread : (afterReads hugeDevice).Readable info.firstLba info.sectors := by
      refine ⟨?_, fun _ _ => rfl⟩
      rw [hfirst, hsectors]
      decide
    rw [hsource]
    exact evaluate_saturated hsectors rfl hread (oneKey_fromBytes _ _) hzero
  · obtain ⟨info, d'', hok, -⟩ := (findPartition_ok_iff (by decide)).mpr
      ⟨supported_huge, crcsMatch_samples.2.2, firstNamed_huge, by decide, by decide⟩
    rw [hfind] at hok
    cases hok

theorem halt_wide : (evaluateBootImage sampleScheme sampleKey (bootImageSource wideDevice)).1 =
    some (.halt .imageTooShort) := by
  rcases bootImageSource_cases wideDevice with ⟨info, hfind, -⟩ | ⟨-, hsource⟩
  · obtain ⟨hs, -⟩ := supported_of_ok hfind
    exact absurd hs.entrySize.2.1 headed_samples.2.2
  · rw [hsource]
    rfl

/-- A table with wide entries is refused, though everything on the device is as it
should be, and so is a boot partition of 2^55 sectors. -/
theorem boot_gate_refuses :
    (Gpt.CrcsMatch wideDevice ∧ BootVerified sampleScheme sampleKey wideDevice 4 4 ∧
      (evaluateBootImage sampleScheme sampleKey (bootImageSource wideDevice)).1 =
        some (.halt .imageTooShort)) ∧
    (Gpt.Supported hugeDevice ∧ Gpt.CrcsMatch hugeDevice ∧
      BootVerified onesScheme sampleKey hugeDevice 3 (2 ^ 55 + 2) ∧
      (evaluateBootImage onesScheme sampleKey (bootImageSource hugeDevice)).1 =
        some (.halt .invalidSignature)) := by
  exact ⟨⟨crcsMatch_samples.2.1, ⟨tabled_samples.2.1.firstNamed, by decide, by decide,
    ⟨by decide, fun _ _ => rfl⟩, signedBy_sample images_samples.1.2.1⟩, halt_wide⟩, supported_huge,
    crcsMatch_samples.2.2, bootVerified_huge, halt_huge⟩

end SecureBoot

end Thumos
