import Thumos.Lib.Fields
import Thumos.Storage.Sectors

/-!
# The secrets preamble

One sector in front of the encrypted partition, with the device salt, the record
of the key derivation, and the verifier of the boot passphrase once there is one.
A SHA-256 digest over the sector is stored in it.  SHA-256 is a parameter.

The magic alone tells a sector that was never written from a damaged one, and the
digest has no key.  So a damaged magic is taken for a blank device, and a change
whose digest was computed again is not noticed.
-/

namespace Thumos

open LittleEndian Fields Vector

abbrev Digest := Vector UInt8 32
abbrev Salt := Vector UInt8 32
abbrev Verifier := Vector UInt8 32

inductive PinKdf where
  | pbkdf2Sha256 (iterations : UInt32)
  | argon2id (mCostKib tCost pCost : UInt32)
  deriving DecidableEq

def PinKdf.NonZero : PinKdf → Prop
  | .pbkdf2Sha256 iterations => iterations ≠ 0
  | .argon2id mCostKib tCost pCost => mCostKib ≠ 0 ∧ tCost ≠ 0 ∧ pCost ≠ 0

instance : (kdf : PinKdf) → Decidable kdf.NonZero
  | .pbkdf2Sha256 _ => inferInstanceAs (Decidable (_ ≠ _))
  | .argon2id _ _ _ => inferInstanceAs (Decidable (_ ∧ _))

structure DeviceSecrets where
  salt : Salt
  bootVerifier : Option Verifier
  kdf : PinKdf
  deriving DecidableEq

inductive PreambleStatus where
  | absent
  | corrupt
  | valid (secrets : DeviceSecrets)
  deriving DecidableEq

inductive ProvisionError where
  | io (error : BlockError)
  | entropy
  | shortFill (filled : Nat)
  | degenerateSalt
  deriving DecidableEq

namespace Secrets

/-- `"THSECR\0\0"` -/
def magic : List UInt8 := [84, 72, 83, 69, 67, 82, 0, 0]

def version : Nat := 2
def versionV1 : Nat := 1
def v1Kdf : PinKdf := .pbkdf2Sha256 100000
def masterKdf : PinKdf := v1Kdf

abbrev versionOffset : Nat := 8
abbrev slotCountOffset : Nat := 12
abbrev integrityOffset : Nat := 16
abbrev saltOffset : Nat := 48
abbrev verifierOffset : Nat := 80
abbrev kdfOffset : Nat := 112

def u32At (s : Sector) (off : Nat) : Nat := leValue (slice s off 4)

def field32 (s : Sector) (off : Nat) : Vector UInt8 32 :=
  Vector.ofFn fun i => (slice s off 32).getD i 0

def covered (s : Sector) : Sector := copyAt s integrityOffset (List.replicate 32 0)

section

variable (sha256 : List UInt8 → Digest)

def integrityOf (s : Sector) : Digest := sha256 (covered s).toList

def parseKdf (s : Sector) : Option PinKdf :=
  let field i := u32At s (kdfOffset + i * 4)
  if field 0 = 1 then
    let iterations := field 1
    if iterations > 0 then some (.pbkdf2Sha256 (UInt32.ofNat iterations)) else none
  else if field 0 = 2 then
    let mCostKib := field 1
    let tCost := field 2
    let pCost := field 3
    if mCostKib > 0 ∧ tCost > 0 ∧ pCost > 0 then
      some (.argon2id (UInt32.ofNat mCostKib) (UInt32.ofNat tCost) (UInt32.ofNat pCost))
    else none
  else none

def accepted (ver count : Nat) : Bool :=
  if ver = versionV1 then count = 1 ∨ count = 2 else count = 2 ∨ count = 3

def hasVerifier (ver count : Nat) : Bool :=
  if ver = versionV1 then count = 2 else count = 3

def parse (s : Sector) : PreambleStatus :=
  if slice s 0 8 ≠ magic then .absent
  else
    let ver := u32At s versionOffset
    if ver ≠ version ∧ ver ≠ versionV1 then .corrupt
    else
      let count := u32At s slotCountOffset
      if ¬ accepted ver count then .corrupt
      else if slice s integrityOffset 32 ≠ (integrityOf sha256 s).toList then .corrupt
      else
        let salt := field32 s saltOffset
        if allZero salt.toList then .corrupt
        else
          let v := field32 s verifierOffset
          if hasVerifier ver count ∧ allZero v.toList then .corrupt
          else
            let bootVerifier := if hasVerifier ver count then some v else none
            if ver = versionV1 then .valid ⟨salt, bootVerifier, v1Kdf⟩
            else
              match parseKdf s with
              | some kdf => .valid ⟨salt, bootVerifier, kdf⟩
              | none => .corrupt

def renderKdf (s : Sector) (kdf : PinKdf) : Sector :=
  let put (s : Sector) (i v : Nat) := copyAt s (kdfOffset + i * 4) (leBytes 4 v)
  match kdf with
  | .pbkdf2Sha256 iterations => put (put s 0 1) 1 iterations.toNat
  | .argon2id mCostKib tCost pCost =>
    put (put (put (put s 0 2) 1 mCostKib.toNat) 2 tCost.toNat) 3 pCost.toNat

def renderContent (salt : Salt) (verifier : Option Verifier) (kdf : PinKdf) : Sector :=
  let s : Sector := Vector.replicate sectorSize 0
  let s := copyAt s 0 magic
  let s := copyAt s versionOffset (leBytes 4 version)
  let count := (if verifier.isSome then 1 else 0) + 2
  let s := copyAt s slotCountOffset (leBytes 4 count)
  let s := copyAt s saltOffset salt.toList
  let s := match verifier with
    | some v => copyAt s verifierOffset v.toList
    | none => s
  renderKdf s kdf

def render (salt : Salt) (verifier : Option Verifier) (kdf : PinKdf) : Sector :=
  let s := renderContent salt verifier kdf
  copyAt s integrityOffset (integrityOf sha256 s).toList

def load (d : SectorDevice) : Except BlockError PreambleStatus × SectorDevice :=
  match d.readSector 0 with
  | (.error e, d) => (.error e, d)
  | (.ok s, d) => (.ok (parse sha256 s), d)

/-- `random` is given the zeroed salt, and returns the number of bytes it says it
filled and the buffer. -/
def loadOrProvision (d : SectorDevice) (random : Salt → Except Unit Nat × Salt) :
    Except ProvisionError DeviceSecrets × SectorDevice :=
  match d.readSector 0 with
  | (.error e, d) => (.error (.io e), d)
  | (.ok s, d) =>
    match parse sha256 s with
    | .valid secrets => (.ok secrets, d)
    | _ =>
      match random (Vector.replicate 32 0) with
      | (.error (), _) => (.error .entropy, d)
      | (.ok filled, salt) =>
        if filled ≠ 32 then (.error (.shortFill filled), d)
        else if allZero salt.toList then (.error .degenerateSalt, d)
        else
          match d.writeSector 0 (render sha256 salt none masterKdf) with
          | (.error e, d) => (.error (.io e), d)
          | (.ok (), d) => (.ok ⟨salt, none, masterKdf⟩, d)

def storeBootVerifier (d : SectorDevice) (salt : Salt) (verifier : Verifier) (kdf : PinKdf) :
    Except BlockError DeviceSecrets × SectorDevice :=
  match d.writeSector 0 (render sha256 salt (some verifier) kdf) with
  | (.error e, d) => (.error e, d)
  | (.ok (), d) => (.ok ⟨salt, some verifier, kdf⟩, d)

end

/-! ## What was rendered is parsed -/

section

variable {s : Sector} {off len : Nat}

theorem u32At_copyAt_self {v : Nat} (h : off + 4 ≤ sectorSize) (hv : v < u32Size) :
    u32At (copyAt s off (leBytes 4 v)) off = v := by
  have hself : slice (copyAt s off (leBytes 4 v)) off (leBytes 4 v).length = leBytes 4 v :=
    slice_copyAt_self (by rw [leBytes_length]; exact h)
  rw [leBytes_length] at hself
  rw [u32At, hself, leValue_leBytes_of_lt hv]

variable {src : List UInt8}

theorem u32At_copyAt_of_disjoint {a : Nat} (h : a + 4 ≤ sectorSize)
    (hd : a + 4 ≤ off ∨ off + src.length ≤ a) : u32At (copyAt s off src) a = u32At s a := by
  rw [u32At, slice_copyAt_of_disjoint h hd, u32At]

theorem field32_toList (h : off + 32 ≤ sectorSize) : (field32 s off).toList = slice s off 32 := by
  refine List.ext_getElem? fun k => ?_
  by_cases hk : k < 32
  · rw [getElem?_toList, getElem?_eq_getElem hk, field32, getElem_ofFn,
      List.getD_eq_getElem?_getD, List.getElem?_eq_getElem (by rw [slice_length h]; exact hk)]
    rfl
  · rw [List.getElem?_eq_none (by rw [length_toList]; omega),
      List.getElem?_eq_none (by rw [slice_length h]; omega)]

theorem field32_copyAt_self {v : Vector UInt8 32} (h : off + 32 ≤ sectorSize) :
    field32 (copyAt s off v.toList) off = v := by
  have hself : slice (copyAt s off v.toList) off v.toList.length = v.toList :=
    slice_copyAt_self (by rw [length_toList]; exact h)
  rw [length_toList] at hself
  exact toList_inj.mp ((field32_toList h).trans hself)

theorem field32_copyAt_of_disjoint {a : Nat} (h : a + 32 ≤ sectorSize)
    (hd : a + 32 ≤ off ∨ off + src.length ≤ a) :
    field32 (copyAt s off src) a = field32 s a := by
  refine toList_inj.mp ?_
  rw [field32_toList h, field32_toList h, slice_copyAt_of_disjoint h hd]

theorem slice_renderKdf {a : Nat} (kdf : PinKdf) (h : a + len ≤ kdfOffset) :
    slice (renderKdf s kdf) a len = slice s a len := by
  have hput {t : Sector} (i v : Nat) :
      slice (copyAt t (kdfOffset + i * 4) (leBytes 4 v)) a len = slice t a len :=
    slice_copyAt_of_disjoint (by simp only [sectorSize, kdfOffset] at h ⊢; omega) (.inl (by omega))
  cases kdf with
  | pbkdf2Sha256 iterations => simp only [renderKdf, hput]
  | argon2id mCostKib tCost pCost => simp only [renderKdf, hput]

theorem field32_renderKdf {a : Nat} (kdf : PinKdf) (h : a + 32 ≤ kdfOffset) :
    field32 (renderKdf s kdf) a = field32 s a := by
  rw [field32, slice_renderKdf kdf h, field32]

theorem parseKdf_copyAt (h : off + src.length ≤ kdfOffset) :
    parseKdf (copyAt s off src) = parseKdf s := by
  have hfield {i : Nat} (hi : i < 4) :
      u32At (copyAt s off src) (kdfOffset + i * 4) = u32At s (kdfOffset + i * 4) :=
    u32At_copyAt_of_disjoint (by simp only [sectorSize, kdfOffset]; omega) (.inr (by omega))
  simp only [parseKdf, hfield (show 0 < 4 by decide), hfield (show 1 < 4 by decide),
    hfield (show 2 < 4 by decide), hfield (show 3 < 4 by decide)]

theorem toNat_pos_of_ne_zero {v : UInt32} (h : v ≠ 0) : v.toNat > 0 := by
  refine pos_of_ne_zero fun hv => h ?_
  exact UInt32.toNat_inj.mp hv

theorem parseKdf_renderKdf {kdf : PinKdf} (h : kdf.NonZero) :
    parseKdf (renderKdf s kdf) = some kdf := by
  have hself {t : Sector} {i v : Nat} (hi : i < 4) (hv : v < u32Size) :
      u32At (copyAt t (kdfOffset + i * 4) (leBytes 4 v)) (kdfOffset + i * 4) = v :=
    u32At_copyAt_self (by simp only [sectorSize, kdfOffset]; omega) hv
  have hother {t : Sector} {i j v : Nat} (hi : i < 4) (hij : i < j) :
      u32At (copyAt t (kdfOffset + j * 4) (leBytes 4 v)) (kdfOffset + i * 4) =
        u32At t (kdfOffset + i * 4) :=
    u32At_copyAt_of_disjoint (by simp only [sectorSize, kdfOffset]; omega) (.inl (by omega))
  cases kdf with
  | pbkdf2Sha256 iterations =>
    have hpos := toNat_pos_of_ne_zero h
    have hid : u32At (renderKdf s (.pbkdf2Sha256 iterations)) (kdfOffset + 0 * 4) = 1 :=
      (hother (by decide) (by decide)).trans (hself (by decide) (by decide))
    have hiterations : u32At (renderKdf s (.pbkdf2Sha256 iterations)) (kdfOffset + 1 * 4) =
        iterations.toNat := hself (by decide) iterations.toNat_lt
    simp only [parseKdf, hid, hiterations, if_pos hpos, UInt32.ofNat_toNat, if_true]
  | argon2id mCostKib tCost pCost =>
    have hm := toNat_pos_of_ne_zero h.1
    have ht := toNat_pos_of_ne_zero h.2.1
    have hp := toNat_pos_of_ne_zero h.2.2
    generalize hr : renderKdf s (.argon2id mCostKib tCost pCost) = r
    have hid : u32At r (kdfOffset + 0 * 4) = 2 := by
      rw [← hr, renderKdf, hother (by decide) (by decide), hother (by decide) (by decide),
        hother (by decide) (by decide), hself (by decide) (by decide)]
    have hmem : u32At r (kdfOffset + 1 * 4) = mCostKib.toNat := by
      rw [← hr, renderKdf, hother (by decide) (by decide), hother (by decide) (by decide),
        hself (by decide) mCostKib.toNat_lt]
    have htime : u32At r (kdfOffset + 2 * 4) = tCost.toNat := by
      rw [← hr, renderKdf, hother (by decide) (by decide), hself (by decide) tCost.toNat_lt]
    have hpar : u32At r (kdfOffset + 3 * 4) = pCost.toNat := by
      rw [← hr, renderKdf, hself (by decide) pCost.toNat_lt]
    simp only [parseKdf, hid, hmem, htime, hpar, if_pos (And.intro hm (And.intro ht hp)),
      UInt32.ofNat_toNat]
    rfl

end

structure Describes (s : Sector) (salt : Salt) (verifier : Option Verifier) (kdf : PinKdf) :
    Prop where
  magic_eq : slice s 0 8 = magic
  version_eq : u32At s versionOffset = version
  count_eq : u32At s slotCountOffset = if verifier.isSome then 3 else 2
  salt_eq : field32 s saltOffset = salt
  verifier_eq : ∀ v ∈ verifier, field32 s verifierOffset = v
  kdf_eq : parseKdf s = some kdf

theorem slice_renderContent (salt : Salt) (verifier : Option Verifier) (kdf : PinKdf)
    {a len : Nat} (h : a + len ≤ verifierOffset) :
    slice (renderContent salt verifier kdf) a len =
      slice (copyAt (copyAt (copyAt (copyAt (replicate sectorSize 0) 0 magic)
        versionOffset (leBytes 4 version))
        slotCountOffset (leBytes 4 ((if verifier.isSome then 1 else 0) + 2)))
        saltOffset salt.toList) a len := by
  cases verifier with
  | none => exact slice_renderKdf kdf (le_trans h (by decide))
  | some v =>
    refine (slice_renderKdf kdf (le_trans h (by decide))).trans ?_
    exact slice_copyAt_of_disjoint (le_trans h (by decide)) (.inl h)

theorem describes_renderContent (salt : Salt) (verifier : Option Verifier) {kdf : PinKdf}
    (h : kdf.NonZero) : Describes (renderContent salt verifier kdf) salt verifier kdf where
  magic_eq := by
    rw [slice_renderContent salt verifier kdf (by decide),
      slice_copyAt_of_disjoint (by decide) (.inl (by decide)),
      slice_copyAt_of_disjoint (by decide) (.inl (by decide)),
      slice_copyAt_of_disjoint (by decide) (.inl (by decide))]
    exact slice_copyAt_self (by decide)
  version_eq := by
    rw [u32At, slice_renderContent salt verifier kdf (by decide),
      slice_copyAt_of_disjoint (by decide) (.inl (by decide)),
      slice_copyAt_of_disjoint (by decide) (.inl (by decide)), ← u32At,
      u32At_copyAt_self (by decide) (by decide)]
  count_eq := by
    rw [u32At, slice_renderContent salt verifier kdf (by decide),
      slice_copyAt_of_disjoint (by decide) (.inl (by decide)), ← u32At,
      u32At_copyAt_self (by decide) (by split <;> decide)]
    split <;> rfl
  salt_eq := by
    rw [field32, slice_renderContent salt verifier kdf (by decide), ← field32,
      field32_copyAt_self (by decide)]
  verifier_eq := by
    intro v hv
    cases hv
    rw [renderContent, field32_renderKdf kdf (by decide)]
    exact field32_copyAt_self (by decide)
  kdf_eq := parseKdf_renderKdf h

section

variable {sha256 : List UInt8 → Digest} {s s' : Sector} {salt : Salt}
  {verifier : Option Verifier} {kdf : PinKdf}

def storedTag (s : Sector) : List UInt8 := slice s integrityOffset 32

theorem Describes.fill (h : Describes s salt verifier kdf) (tag : Digest) :
    Describes (copyAt s integrityOffset tag.toList) salt verifier kdf where
  magic_eq := by rw [slice_copyAt_of_disjoint (by decide) (.inl (by decide)), h.magic_eq]
  version_eq := by rw [u32At_copyAt_of_disjoint (by decide) (.inl (by decide)), h.version_eq]
  count_eq := by rw [u32At_copyAt_of_disjoint (by decide) (.inl (by decide)), h.count_eq]
  salt_eq := by
    rw [field32_copyAt_of_disjoint (by decide) (.inr (by rw [length_toList])), h.salt_eq]
  verifier_eq := by
    intro v hv
    rw [field32_copyAt_of_disjoint (by decide) (.inr (by rw [length_toList]; decide)),
      h.verifier_eq v hv]
  kdf_eq := by rw [parseKdf_copyAt (by rw [length_toList]; decide), h.kdf_eq]

theorem covered_fill (tag : Digest) : covered (copyAt s integrityOffset tag.toList) = covered s :=
  copyAt_copyAt (by rw [length_toList, List.length_replicate])

theorem storedTag_render (salt : Salt) (verifier : Option Verifier) (kdf : PinKdf) :
    storedTag (render sha256 salt verifier kdf) =
      (integrityOf sha256 (render sha256 salt verifier kdf)).toList := by
  generalize hs : renderContent salt verifier kdf = s
  have htag : (integrityOf sha256 s).toList.length = 32 := length_toList
  have hself : slice (render sha256 salt verifier kdf) integrityOffset 32 =
      (integrityOf sha256 s).toList := by
    have hcopy : slice (copyAt s integrityOffset (integrityOf sha256 s).toList) integrityOffset
        (integrityOf sha256 s).toList.length = (integrityOf sha256 s).toList :=
      slice_copyAt_self (by rw [htag]; decide)
    rw [htag] at hcopy
    rw [render, hs, hcopy]
  rw [storedTag, hself]
  simp only [render, hs, integrityOf, covered_fill]

theorem parse_of_describes (h : Describes s salt verifier kdf)
    (htag : storedTag s = (integrityOf sha256 s).toList) (hsalt : allZero salt.toList = false)
    (hverifier : ∀ v ∈ verifier, allZero v.toList = false) :
    parse sha256 s = .valid ⟨salt, verifier, kdf⟩ := by
  have hversion : u32At s versionOffset = 2 := h.version_eq
  rw [storedTag] at htag
  cases verifier with
  | none =>
    have hcount : u32At s slotCountOffset = 2 := h.count_eq
    simp [parse, h.magic_eq, hversion, hcount, htag, h.salt_eq, hsalt, h.kdf_eq, version, versionV1,
      accepted, hasVerifier]
  | some v =>
    have hcount : u32At s slotCountOffset = 3 := h.count_eq
    have hv := h.verifier_eq v rfl
    have hv0 := hverifier v rfl
    simp [parse, h.magic_eq, hversion, hcount, htag, h.salt_eq, hsalt, hv, hv0, h.kdf_eq, version,
      versionV1, accepted, hasVerifier]

theorem parse_render (hsalt : allZero salt.toList = false)
    (hverifier : ∀ v ∈ verifier, allZero v.toList = false) (hkdf : kdf.NonZero) :
    parse sha256 (render sha256 salt verifier kdf) = .valid ⟨salt, verifier, kdf⟩ :=
  parse_of_describes ((describes_renderContent salt verifier hkdf).fill _)
    (storedTag_render salt verifier kdf) hsalt hverifier

/-! ## What was damaged is not -/

theorem parse_eq_absent_iff : parse sha256 s = .absent ↔ slice s 0 8 ≠ magic := by
  constructor
  · intro h hmagic
    simp only [parse, hmagic, ne_eq, not_true_eq_false, if_false] at h
    split at h
    · cases h
    split at h
    · cases h
    split at h
    · cases h
    split at h
    · cases h
    split at h
    · cases h
    split at h
    · cases h
    split at h <;> cases h
  · intro hmagic
    rw [parse, if_pos hmagic]

theorem parse_of_wrong_tag (hmagic : slice s 0 8 = magic)
    (htag : storedTag s ≠ (integrityOf sha256 s).toList) : parse sha256 s = .corrupt := by
  rw [storedTag] at htag
  rw [parse, if_neg (not_not_intro hmagic)]
  dsimp only
  split
  · rfl
  split <;> rfl

def NoCollision (sha256 : List UInt8 → Digest) (s s' : Sector) : Prop :=
  integrityOf sha256 s = integrityOf sha256 s' → covered s = covered s'

theorem wrong_tag_of_change (hs : storedTag s = (integrityOf sha256 s).toList) (hne : s' ≠ s)
    (hcol : NoCollision sha256 s s') (h : storedTag s' = storedTag s ∨ covered s' = covered s) :
    storedTag s' ≠ (integrityOf sha256 s').toList := by
  intro hs'
  refine hne ?_
  rcases h with htag | hcovered
  · have hdigest : integrityOf sha256 s = integrityOf sha256 s' :=
      toList_inj.mp (by rw [← hs, ← hs', htag])
    exact eq_of_copyAt_eq (hcol hdigest).symm (by simpa [storedTag] using htag)
  · have htag : storedTag s' = storedTag s := by rw [hs', hs, integrityOf, hcovered, integrityOf]
    exact eq_of_copyAt_eq hcovered (by simpa [storedTag] using htag)

variable {d : SectorDevice}

theorem load_of_readable (hread : d.Readable 0 1) :
    (load sha256 d).1 = .ok (parse sha256 (d.sectors 0)) := by
  rw [load, SectorDevice.readSector_of_readable hread]

/-- The preamble is loaded, and any change that the digest does not hide is seen. -/
structure Kept (sha256 : List UInt8 → Digest) (d : SectorDevice) (secrets : DeviceSecrets) :
    Prop where
  loaded : (load sha256 d).1 = .ok (.valid secrets)
  absent_iff : ∀ s', (load sha256 (d.put 0 s')).1 = .ok .absent ↔ slice s' 0 8 ≠ magic
  corrupt : ∀ s', s' ≠ d.sectors 0 → NoCollision sha256 (d.sectors 0) s' → slice s' 0 8 = magic →
    storedTag s' = storedTag (d.sectors 0) ∨ covered s' = covered (d.sectors 0) ∨
      storedTag s' ≠ (integrityOf sha256 s').toList →
    (load sha256 (d.put 0 s')).1 = .ok .corrupt

theorem kept_render (hread : d.Readable 0 1) (hs : d.sectors 0 = render sha256 salt verifier kdf)
    (hsalt : allZero salt.toList = false) (hverifier : ∀ v ∈ verifier, allZero v.toList = false)
    (hkdf : kdf.NonZero) :
    Kept sha256 d ⟨salt, verifier, kdf⟩ where
  loaded := by rw [load_of_readable hread, hs, parse_render hsalt hverifier hkdf]
  absent_iff := by
    intro s'
    have hload : (load sha256 (d.put 0 s')).1 = .ok (parse sha256 s') :=
      load_of_readable (d := d.put 0 s') hread
    rw [hload, ← @parse_eq_absent_iff sha256 s']
    exact ⟨fun h => Except.ok.inj h, fun h => congrArg Except.ok h⟩
  corrupt := by
    intro s' hne hcol hmagic hchange
    have hload : (load sha256 (d.put 0 s')).1 = .ok (parse sha256 s') :=
      load_of_readable (d := d.put 0 s') hread
    have htag : storedTag (d.sectors 0) = (integrityOf sha256 (d.sectors 0)).toList := by
      rw [hs, storedTag_render]
    have hwrong : storedTag s' ≠ (integrityOf sha256 s').toList := by
      rcases hchange with h | h | h
      · exact wrong_tag_of_change htag hne hcol (.inl h)
      · exact wrong_tag_of_change htag hne hcol (.inr h)
      · exact h
    rw [hload, parse_of_wrong_tag hmagic hwrong]

theorem writeSector_of_writable (hread : d.Readable 0 1) (hwrite : d.writeError 0 = none)
    (s : Sector) : d.writeSector 0 s = (.ok (), d.put 0 s) := by
  have hin := hread.1
  rw [SectorDevice.writeSector, if_neg (by omega), hwrite]

/-- What provisioning and first-boot setup write is loaded back.  A sector whose
magic was changed is taken for a blank one, and any other change makes the
preamble corrupt, unless the digest was replaced by the one of the new content. -/
theorem preamble_kept (sha256 : List UInt8 → Digest) (d : SectorDevice) (hread : d.Readable 0 1)
    (hwrite : d.writeError 0 = none) :
    (∀ (salt : Salt) (random : Salt → Except Unit Nat × Salt),
      allZero salt.toList = false → (∀ secrets, parse sha256 (d.sectors 0) ≠ .valid secrets) →
      random (Vector.replicate 32 0) = (.ok 32, salt) →
      ∃ d', loadOrProvision sha256 d random = (.ok ⟨salt, none, masterKdf⟩, d') ∧
        Kept sha256 d' ⟨salt, none, masterKdf⟩) ∧
    ∀ (salt : Salt) (verifier : Verifier) (kdf : PinKdf),
      allZero salt.toList = false → allZero verifier.toList = false → kdf.NonZero →
      ∃ d', storeBootVerifier sha256 d salt verifier kdf = (.ok ⟨salt, some verifier, kdf⟩, d') ∧
        Kept sha256 d' ⟨salt, some verifier, kdf⟩ := by
  refine ⟨fun salt random hsalt hparse hrandom => ?_,
    fun salt verifier kdf hsalt hverifier hkdf => ?_⟩
  · have hwritten (t : SectorDevice) (htread : t.Readable 0 1) (htwrite : t.writeError 0 = none) :=
      writeSector_of_writable htread htwrite (render sha256 salt none masterKdf)
    generalize hd1 : { d with reads := d.reads ++ [(0, 1)] } = d1
    have hread1 : d1.Readable 0 1 := hd1 ▸ hread
    have hwrite1 : d1.writeError 0 = none := hd1 ▸ hwrite
    refine ⟨d1.put 0 (render sha256 salt none masterKdf), ?_, ?_⟩
    · rw [loadOrProvision, SectorDevice.readSector_of_readable hread, hd1]
      dsimp only
      split
      · rename_i secrets hvalid
        exact absurd hvalid (hparse secrets)
      · rw [hrandom]
        dsimp only
        rw [if_neg (by decide), if_neg (by rw [hsalt]; decide), hwritten d1 hread1 hwrite1]
    · exact kept_render (d := d1.put 0 _) hread1 rfl hsalt (fun v hv => by cases hv) (by decide)
  · refine ⟨d.put 0 (render sha256 salt (some verifier) kdf), ?_, ?_⟩
    · rw [storeBootVerifier, writeSector_of_writable hread hwrite]
    · refine kept_render (d := d.put 0 _) hread rfl hsalt (fun v hv => ?_) hkdf
      cases hv
      exact hverifier

end

/-! ## A sample -/

def sampleSalt : Salt := Vector.ofFn fun i => UInt8.ofNat (i.val + 1)
def sampleVerifier : Verifier := Vector.ofFn fun i => UInt8.ofNat (i.val + 33)

def sampleContent : Sector := renderContent sampleSalt (some sampleVerifier) v1Kdf
def otherContent : Sector := copyAt sampleContent saltOffset [2]

/-- SHA-256 of `sampleContent`. -/
def sampleDigest : Digest := #v[177, 109, 46, 43, 83, 232, 69, 80, 173, 100, 49, 28, 170, 142, 202,
  118, 70, 59, 64, 51, 13, 14, 135, 31, 99, 192, 154, 10, 206, 150, 208, 68]

/-- SHA-256 of `otherContent`. -/
def otherDigest : Digest := #v[125, 130, 135, 162, 82, 184, 73, 164, 56, 56, 251, 120, 50, 5, 171,
  175, 150, 83, 166, 104, 8, 24, 18, 46, 255, 182, 154, 210, 6, 162, 159, 180]

def sampleSha (bytes : List UInt8) : Digest :=
  if bytes = sampleContent.toList then sampleDigest
  else if bytes = otherContent.toList then otherDigest
  else Vector.replicate 32 0

def blankDevice : SectorDevice :=
  ⟨1, by decide, fun _ => Vector.replicate sectorSize 0, fun _ => none, fun _ => none, []⟩

def sampleDevice : SectorDevice :=
  (storeBootVerifier sampleSha blankDevice sampleSalt sampleVerifier v1Kdf).2

theorem preamble_kept_sample :
    (storeBootVerifier sampleSha blankDevice sampleSalt sampleVerifier v1Kdf).1 =
      .ok ⟨sampleSalt, some sampleVerifier, v1Kdf⟩ ∧
    (load sampleSha sampleDevice).1 = .ok (.valid ⟨sampleSalt, some sampleVerifier, v1Kdf⟩) ∧
    (load sampleSha (sampleDevice.put 0 (copyAt (sampleDevice.sectors 0) saltOffset [2]))).1 =
      .ok .corrupt := by
  obtain ⟨d', hstore, hkept⟩ := (preamble_kept sampleSha blankDevice (by decide) rfl).2 sampleSalt
    sampleVerifier v1Kdf (by decide +kernel) (by decide +kernel) (by decide)
  have hd' : sampleDevice = d' := congrArg Prod.snd hstore
  exact ⟨congrArg Prod.fst hstore, hd' ▸ hkept.loaded, by decide +kernel⟩

/-- A changed bit of the magic makes the device look blank, and a changed salt with
the digest of the new content is taken for the device's own. -/
theorem preamble_mistaken :
    (storeBootVerifier sampleSha blankDevice sampleSalt sampleVerifier v1Kdf).1 =
      .ok ⟨sampleSalt, some sampleVerifier, v1Kdf⟩ ∧
    (load sampleSha (sampleDevice.put 0 (copyAt (sampleDevice.sectors 0) 0 [85]))).1 =
      .ok .absent ∧
    (load sampleSha (sampleDevice.put 0 (copyAt otherContent integrityOffset
      otherDigest.toList))).1 =
      .ok (.valid ⟨sampleSalt.set 0 2, some sampleVerifier, v1Kdf⟩) ∧
    sampleSalt.set 0 2 ≠ sampleSalt ∧
    integrityOf sampleSha sampleContent ≠ integrityOf sampleSha otherContent := by
  decide +kernel

end Secrets

end Thumos
