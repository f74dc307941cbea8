import Mathlib.Data.List.Infix
import Thumos.Vfs.RamFs

/-!
# Mount table and path resolution

The model of the mount table and of `resolve_path` in `vfs.rs`.  A path is
a list of bytes.  `segments` splits it at every slash, so that a leading,
trailing or doubled slash shows as an empty segment; `components` are the
segments without the empty ones and without `.`.

The mount is selected on the spelling of the path: a mount point matches when the
path goes on after it with a slash.  The walk sees the components only.  Two paths
with the same components resolve alike, whatever is mounted, if and only if the
longest mount point that matches is the same; where it is not, they give the same
answer only if it is an error.
-/

namespace Thumos

open GuardedRun List

abbrev slash : UInt8 := 47

abbrev dot : Name := [46]

abbrev dotDot : Name := [46, 46]

/-- `path.split('/')` -/
def segments (path : List UInt8) : List Name := path.splitOn slash

def components (path : List UInt8) : List Name :=
  (segments path).filter fun c => c ≠ [] ∧ c ≠ dot

/-- What `resolve_path` uses of a `Filesystem`.  A lookup in an inode that is
no directory answers `NotADirectory`, as the trait requires. -/
structure Filesystem where
  rootInode : Nat
  lookup : Nat → Name → Except VfsError Nat
  isDirectory : Nat → Bool
  lookup_file : ∀ inode name, isDirectory inode = false →
    lookup inode name = .error .notADirectory

structure MountEntry where
  path : List UInt8
  fs : Filesystem

abbrev maxMounts : Nat := 8

structure MountTable where
  entries : List (Option MountEntry)

namespace MountTable

def new : MountTable := ⟨List.replicate maxMounts none⟩

def mount (t : MountTable) (path : List UInt8) (fs : Filesystem) : Except VfsError MountTable :=
  if path.head? ≠ some slash then .error .invalidPath
  else if 1 < path.length ∧ path.getLast? = some slash then .error .invalidPath
  else if t.entries.any fun slot => slot.any fun e => e.path = path then .error .alreadyExists
  else
    match t.entries.findIdx? Option.isNone with
    | none => .error .noSpace
    | some i => .ok ⟨t.entries.set i (some ⟨path, fs⟩)⟩

def isMatch (mountPath path : List UInt8) : Bool :=
  path = mountPath || (mountPath.isPrefixOf path && path[mountPath.length]? = some slash)

/-- One turn of the loop of `lookup`: the best index and length so far. -/
def better (path : List UInt8) (best : Option Nat × Nat) (slot : Option MountEntry × Nat) :
    Option Nat × Nat :=
  match slot.1 with
  | none => best
  | some entry =>
    if entry.path = [slash] then if best.2 = 0 then (some slot.2, 1) else best
    else if isMatch entry.path path && decide (best.2 < entry.path.length) then
      (some slot.2, entry.path.length)
    else best

def best (t : MountTable) (path : List UInt8) : Option Nat × Nat :=
  t.entries.zipIdx.foldl (better path) (none, 0)

/-- The part of the path below a mount path of `len` bytes. -/
def remaining (path : List UInt8) (len : Nat) : List UInt8 :=
  if len = 1 then path else if path.length = len then [slash] else path.drop len

def lookup (t : MountTable) (path : List UInt8) : Option (Nat × List UInt8) :=
  (t.best path).1.map fun i => (i, remaining path (t.best path).2)

def get (t : MountTable) (i : Nat) : Option Filesystem :=
  if maxMounts ≤ i then none
  else (t.entries[i]?.bind id).map MountEntry.fs

end MountTable

/-- One turn of the walk: the parent stack and the current inode. -/
def walkStep (fs : Filesystem) (st : List Nat × Nat) (component : Name) :
    Except VfsError (List Nat × Nat) :=
  if component = dot then .ok st
  else if component = dotDot then .ok (st.1.tail, st.1.headD fs.rootInode)
  else (fs.lookup st.2 component).map fun child => (st.2 :: st.1, child)

def walk (fs : Filesystem) (path : List Name) : Except VfsError Nat :=
  (path.foldlM (walkStep fs) ([], fs.rootInode)).map Prod.snd

def resolvePath (t : MountTable) (path : List UInt8) : Except VfsError (Nat × Nat) :=
  if path = [] ∨ path.head? ≠ some slash then .error .invalidPath
  else
    match t.lookup path with
    | none => .error .notFound
    | some (i, rest) =>
      match t.get i with
      | none => .error .notFound
      | some fs =>
        let parts := (segments rest).filter fun c => c ≠ []
        if parts = [] then .ok (i, fs.rootInode)
        else (walk fs parts).map fun inode => (i, inode)

/-! ## The walk sees components -/

theorem components_append (m r : List UInt8) :
    components (m ++ slash :: r) = components m ++ components r := by
  have hsplit : segments (m ++ slash :: r) = segments m ++ segments r :=
    splitOnP_append_cons m r (beq_self_eq_true slash)
  rw [components, hsplit, filter_append]
  rfl

theorem foldlM_walkStep_filter (fs : Filesystem) (l : List Name) (st : List Nat × Nat) :
    l.foldlM (walkStep fs) st = (l.filter fun c => c ≠ dot).foldlM (walkStep fs) st := by
  induction l generalizing st with
  | nil => rfl
  | cons c l ih =>
    by_cases hc : c = dot
    · have hskip : walkStep fs st c = .ok st := if_pos hc
      rw [foldlM_cons, hskip, filter_cons_of_neg (by simpa using hc)]
      exact ih st
    · rw [filter_cons_of_pos (by simpa using hc), foldlM_cons, foldlM_cons]
      exact bind_congr fun st' => ih st'

theorem walk_components (fs : Filesystem) (path : List UInt8) :
    walk fs ((segments path).filter fun c => c ≠ []) = walk fs (components path) := by
  have hfilter : components path =
      ((segments path).filter fun c => c ≠ []).filter fun c => c ≠ dot := by
    rw [filter_filter, components]
    refine filter_congr fun c _ => ?_
    rw [← Bool.decide_and, decide_eq_decide, and_comm]
  rw [walk, foldlM_walkStep_filter, ← hfilter]
  rfl

/-- `resolve_path` walks the components of the path below the mount. -/
theorem resolvePath_of_lookup {t : MountTable} {path rest : List UInt8} {i : Nat} {fs : Filesystem}
    (habs : path.head? = some slash) (hlookup : t.lookup path = some (i, rest))
    (hget : t.get i = some fs) :
    resolvePath t path = (walk fs (components rest)).map fun inode => (i, inode) := by
  have hgood : ¬(path = [] ∨ path.head? ≠ some slash) := by
    rintro (rfl | hne)
    · cases habs
    · exact hne habs
  rw [resolvePath, if_neg hgood, hlookup]
  dsimp only
  rw [hget, ← walk_components]
  dsimp only
  split
  · rename_i hnil
    rw [hnil]
    rfl
  · rfl

theorem walk_append {fs : Filesystem} {pre : List Name} {inode : Nat}
    (h : walk fs pre = .ok inode) : ∃ stack, ∀ post,
      walk fs (pre ++ post) = (post.foldlM (walkStep fs) (stack, inode)).map Prod.snd := by
  unfold walk at h
  cases hpre : pre.foldlM (walkStep fs) ([], fs.rootInode) with
  | error err =>
    rw [hpre] at h
    cases h
  | ok st =>
    rw [hpre] at h
    obtain rfl : st.2 = inode := Except.ok.inj h
    refine ⟨st.1, fun post => ?_⟩
    rw [walk, foldlM_append, hpre]
    rfl

/-- A name and a `..` after it leave the walk where it was. -/
theorem walk_skip {fs : Filesystem} {pre : List Name} {name : Name} {inode : Nat}
    (hdot : name ≠ dot) (hdotDot : name ≠ dotDot) (h : walk fs (pre ++ [name]) = .ok inode)
    (post : List Name) : walk fs (pre ++ name :: dotDot :: post) = walk fs (pre ++ post) := by
  unfold walk at h ⊢
  rw [foldlM_append, foldlM_append]
  rw [foldlM_append] at h
  cases hpre : pre.foldlM (walkStep fs) ([], fs.rootInode) with
  | error err =>
    rw [hpre] at h
    cases h
  | ok st =>
    have hname : walkStep fs st name = (fs.lookup st.2 name).map fun child =>
        (st.2 :: st.1, child) := by
      rw [walkStep, if_neg hdot, if_neg hdotDot]
    cases hchild : fs.lookup st.2 name with
    | error err =>
      rw [hchild] at hname
      rw [hpre] at h
      change Except.map _ (foldlM (walkStep fs) st [name]) = _ at h
      rw [foldlM_cons, hname] at h
      cases h
    | ok child =>
      rw [hchild] at hname
      show Except.map _ (foldlM (walkStep fs) st (name :: dotDot :: post)) = _
      rw [foldlM_cons, hname]
      rfl

/-! ## Mount tables -/

namespace MountTable

def step (t : MountTable) (r : MountEntry) : MountTable :=
  match t.mount r.path r.fs with
  | .ok t' => t'
  | .error _ => t

/-- The mount points, by the slots of the table. -/
def paths (t : MountTable) : List (Option (List UInt8)) := t.entries.map (Option.map MountEntry.path)

/-- The path is the mount point or goes on after it with a slash; below `/` is every path. -/
def Below (path m : List UInt8) : Prop := m = [slash] ∨ path = m ∨ ∃ r, path = m ++ slash :: r

/-- The longest of the mount points that the path is below. -/
def Longest (t : MountTable) (path m : List UInt8) : Prop :=
  some m ∈ t.paths ∧ Below path m ∧
    ∀ m', some m' ∈ t.paths → Below path m' → m'.length ≤ m.length

/-- The longest mount point is the same for the two spellings. -/
def SameMount (t : MountTable) (p q : List UInt8) : Prop := ∃ m, t.Longest p m ∧ t.Longest q m

structure WellFormed (t : MountTable) : Prop where
  length_eq : t.paths.length = maxMounts
  absolute : ∀ m, some m ∈ t.paths → m.head? = some slash
  unique : ∀ (i j : Nat) m, t.paths[i]? = some (some m) → t.paths[j]? = some (some m) → i = j

variable {t t' : MountTable} {p q m m' : List UInt8}

theorem wellFormed_new : new.WellFormed := by
  refine ⟨rfl, fun m hm => ?_, fun i j m hi => ?_⟩
  · cases eq_of_mem_replicate (show some m ∈ replicate maxMounts none from hm)
  · have hm := mem_of_getElem? hi
    cases eq_of_mem_replicate (show some m ∈ replicate maxMounts none from hm)

theorem WellFormed.of_paths (h : t.WellFormed) (hpaths : t'.paths = t.paths) : t'.WellFormed :=
  ⟨hpaths ▸ h.length_eq, hpaths ▸ h.absolute, hpaths ▸ h.unique⟩

theorem longest_of_paths (hpaths : t'.paths = t.paths) : t'.Longest p m ↔ t.Longest p m := by
  rw [Longest, Longest, hpaths]

theorem WellFormed.step (h : t.WellFormed) (r : MountEntry) : (t.step r).WellFormed := by
  unfold MountTable.step mount
  split_ifs with habs htrail hdup
  · exact h
  · exact h
  · exact h
  cases t.entries.findIdx? Option.isNone with
  | none => exact h
  | some i =>
    have hpaths : (MountTable.mk (t.entries.set i (some r))).paths = t.paths.set i (some r.path) :=
      map_set
    have hnew : some r.path ∉ t.paths := by
      intro hmem
      obtain ⟨slot, hslot, hpath⟩ := mem_map.mp hmem
      obtain ⟨e, rfl, hpath⟩ := Option.map_eq_some_iff.mp hpath
      exact hdup (any_eq_true.mpr ⟨_, hslot, by simpa using hpath⟩)
    refine ⟨?_, ?_, ?_⟩
    · rw [hpaths, length_set, h.length_eq]
    · intro m hm
      rw [hpaths] at hm
      rcases mem_or_eq_of_mem_set hm with hm | hm
      · exact h.absolute m hm
      · rw [Option.some.inj hm]
        exact not_not.mp habs
    · intro j k m hj hk
      rw [hpaths, getElem?_set] at hj hk
      split at hj <;> split at hk
      case isTrue.isTrue hij hik => rw [← hij, hik]
      case isTrue.isFalse hij _ =>
        obtain ⟨-, hm⟩ := Option.ite_none_right_eq_some.mp hj
        exact absurd (mem_of_getElem? hk) (Option.some.inj hm ▸ hnew)
      case isFalse.isTrue _ hik =>
        obtain ⟨-, hm⟩ := Option.ite_none_right_eq_some.mp hk
        exact absurd (mem_of_getElem? hj) (Option.some.inj hm ▸ hnew)
      case isFalse.isFalse => exact h.unique j k m hj hk

/-! ## The selection -/

theorem isMatch_iff : isMatch m p = true ↔ p = m ∨ ∃ r, p = m ++ slash :: r := by
  simp only [isMatch, Bool.or_eq_true, Bool.and_eq_true, decide_eq_true_eq, isPrefixOf_iff_prefix]
  refine or_congr_right ⟨?_, ?_⟩
  · rintro ⟨⟨s, rfl⟩, hget⟩
    rw [getElem?_append_right le_rfl, Nat.sub_self] at hget
    cases s with
    | nil => cases hget
    | cons b r =>
      rw [getElem?_cons_zero, Option.some.injEq] at hget
      exact ⟨r, by rw [hget]⟩
  · rintro ⟨r, rfl⟩
    refine ⟨prefix_append _ _, ?_⟩
    rw [getElem?_append_right le_rfl, Nat.sub_self]
    rfl

instance (p m : List UInt8) : Decidable (Below p m) :=
  decidable_of_iff (m = [slash] ∨ isMatch m p = true) (or_congr_right isMatch_iff)

theorem Below.isPrefix (h : Below p m) (hp : p.head? = some slash) : m <+: p := by
  rcases h with rfl | rfl | ⟨r, rfl⟩
  · cases p with
    | nil => cases hp
    | cons b p => exact ⟨p, by rw [Option.some.inj hp]; rfl⟩
  · exact prefix_refl _
  · exact prefix_append _ _

theorem Longest.unique (h : t.Longest p m) (h' : t.Longest p m') (hp : p.head? = some slash) :
    m = m' := by
  have hle := h.2.2 m' h'.1 h'.2.1
  have hle' := h'.2.2 m h.1 h.2.1
  exact (prefix_of_prefix_length_le (h.2.1.isPrefix hp) (h'.2.1.isPrefix hp) hle').eq_of_length
    (le_antisymm hle' hle)

/-- The length that a slot is selected with; 0 if it does not match. -/
def weight (p : List UInt8) : Option MountEntry → Nat
  | none => 0
  | some e => if Below p e.path then e.path.length else 0

theorem better_eq (p : List UInt8) (b : Option Nat × Nat) (slot : Option MountEntry × Nat) :
    better p b slot = if b.2 < weight p slot.1 then (some slot.2, weight p slot.1) else b := by
  unfold better
  cases slot.1 with
  | none => rfl
  | some e =>
    have hbelow : Below p e.path ↔ e.path = [slash] ∨ isMatch e.path p = true :=
      or_congr_right isMatch_iff.symm
    rw [weight, if_congr hbelow rfl rfl]
    by_cases hroot : e.path = [slash]
    · simp [hroot]
    · cases hmatch : isMatch e.path p <;> simp [hroot, hmatch]

/-- The loop of `lookup` finds a slot of the largest weight. -/
theorem foldl_better (p : List UInt8) (slots : List (Option MountEntry × Nat))
    (b : Option Nat × Nat) :
    let b' := slots.foldl (better p) b
    (∀ x ∈ slots, weight p x.1 ≤ b'.2) ∧ b.2 ≤ b'.2 ∧
      (b' = b ∨ ∃ x ∈ slots, b' = (some x.2, weight p x.1)) := by
  induction slots generalizing b with
  | nil => exact ⟨by simp, le_rfl, .inl rfl⟩
  | cons x slots ih =>
    obtain ⟨hmax, hle, hsome⟩ := ih (better p b x)
    have hturn := better_eq p b x
    have hnext : weight p x.1 ≤ (better p b x).2 ∧ b.2 ≤ (better p b x).2 := by
      rw [hturn]
      split
      · exact ⟨le_rfl, by omega⟩
      · exact ⟨by omega, le_rfl⟩
    refine ⟨forall_mem_cons.mpr ⟨hnext.1.trans hle, hmax⟩, hnext.2.trans hle, ?_⟩
    rcases hsome with heq | ⟨y, hy, heq⟩
    · rw [foldl_cons, heq, hturn]
      split
      · exact .inr ⟨x, mem_cons_self, rfl⟩
      · exact .inl rfl
    · exact .inr ⟨y, mem_cons_of_mem x hy, heq⟩

theorem mem_paths {k : Nat} {e : MountEntry} (h : t.entries[k]? = some (some e)) :
    t.paths[k]? = some (some e.path) := by
  rw [paths, getElem?_map, h]
  rfl

/-- Where `/` is mounted, a path resolves in the filesystem at its longest mount point. -/
theorem exists_longest (h : t.WellFormed) (hroot : some [slash] ∈ t.paths)
    (hp : p.head? = some slash) : ∃ k e, t.paths[k]? = some (some e.path) ∧ t.Longest p e.path ∧
      t.entries[k]? = some (some e) ∧ resolvePath t p =
        (walk e.fs (components (remaining p e.path.length))).map fun inode => (k, inode) := by
  obtain ⟨hmax, -, hsome⟩ := foldl_better p t.entries.zipIdx (none, 0)
  have hle : ∀ m, some m ∈ t.paths → Below p m → m.length ≤ (t.best p).2 := by
    intro m hm hbelow
    obtain ⟨slot, hslot, hpath⟩ := mem_map.mp hm
    obtain ⟨e, rfl, rfl⟩ := Option.map_eq_some_iff.mp hpath
    obtain ⟨k, hk⟩ := mem_iff_getElem?.mp hslot
    have hweight : weight p (some e) = e.path.length := if_pos hbelow
    exact hweight ▸ hmax (some e, k) (mk_mem_zipIdx_iff_getElem?.mpr hk)
  have hpos : 1 ≤ (t.best p).2 := hle _ hroot (.inl rfl)
  rcases hsome with hnone | ⟨⟨slot, k⟩, hslot, hbest⟩
  · have hzero : t.best p = (none, 0) := hnone
    rw [hzero] at hpos
    cases hpos
  have hbest : t.best p = (some k, weight p slot) := hbest
  rw [hbest] at hpos hle
  cases slot with
  | none => cases hpos
  | some e =>
    have hk : t.entries[k]? = some (some e) := mk_mem_zipIdx_iff_getElem?.mp hslot
    have hbelow : Below p e.path := by
      by_contra hnot
      exact absurd (hpos.trans_eq (if_neg hnot)) (by decide)
    have hweight : weight p (some e) = e.path.length := if_pos hbelow
    rw [hweight] at hbest hle
    have hlt : k < maxMounts := h.length_eq ▸ (List.getElem?_eq_some_iff.mp (mem_paths hk)).1
    refine ⟨k, e, mem_paths hk, ⟨mem_of_getElem? (mem_paths hk), hbelow, hle⟩, hk,
      resolvePath_of_lookup hp ?_ ?_⟩
    · rw [lookup, hbest]
      rfl
    · rw [get, if_neg (by omega), hk]
      rfl

theorem components_remaining (hm : m.head? = some slash) (h : Below p m) :
    components p = components m ++ components (remaining p m.length) := by
  by_cases hroot : m = [slash]
  · rw [hroot]
    rfl
  have hlen : m.length ≠ 1 := by
    intro hone
    obtain ⟨b, rfl⟩ := length_eq_one_iff.mp hone
    exact hroot (by rw [Option.some.inj hm])
  rw [remaining, if_neg hlen]
  rcases h with hm | rfl | ⟨r, rfl⟩
  · exact absurd hm hroot
  · rw [if_pos rfl]
    exact (append_nil _).symm
  · rw [if_neg (by simp), drop_left, components_append]
    exact congrArg _ (components_append [] r).symm

theorem resolvePath_congr (h : t.WellFormed) (hroot : some [slash] ∈ t.paths)
    (hp : p.head? = some slash) (hq : q.head? = some slash) (hs : t.SameMount p q)
    (hcomp : components p = components q) : resolvePath t p = resolvePath t q := by
  obtain ⟨m, hpm, hqm⟩ := hs
  obtain ⟨k, e, hk, hlongest, hentry, hresolve⟩ := exists_longest h hroot hp
  obtain ⟨k', e', hk', hlongest', hentry', hresolve'⟩ := exists_longest h hroot hq
  obtain rfl := hlongest.unique hpm hp
  have hpath := hlongest'.unique hqm hq
  obtain rfl : k' = k := h.unique k' k e.path (hpath ▸ hk') hk
  obtain rfl : e' = e := Option.some.inj (Option.some.inj (hentry'.symm.trans hentry))
  have habs := h.absolute _ hlongest.1
  have hrest : components (remaining p e'.path.length) = components (remaining q e'.path.length) := by
    rw [components_remaining habs hlongest.2.1, components_remaining habs hqm.2.1] at hcomp
    exact append_cancel_left hcomp
  rw [hresolve, hresolve', hrest]

/-! ## Different mounts -/

/-- A filesystem that has every name. -/
def allNames : Filesystem := ⟨0, fun _ _ => .ok 0, fun _ => true, fun _ _ h => nomatch h⟩

def everywhere (t : MountTable) : MountTable :=
  ⟨t.entries.map (Option.map fun e => { e with fs := allNames })⟩

theorem paths_everywhere (t : MountTable) : t.everywhere.paths = t.paths := by
  rw [paths, everywhere, map_map, paths]
  refine map_congr_left fun slot _ => ?_
  cases slot <;> rfl

theorem walk_allNames (l : List Name) : ∃ inode, walk allNames l = .ok inode := by
  have hloop : ∀ st, ∃ st', l.foldlM (walkStep allNames) st = .ok st' := by
    induction l with
    | nil => exact fun st => ⟨st, rfl⟩
    | cons c l ih =>
      intro st
      have hstep : ∃ st', walkStep allNames st c = .ok st' := by
        unfold walkStep
        split
        · exact ⟨_, rfl⟩
        · split <;> exact ⟨_, rfl⟩
      obtain ⟨st', hst'⟩ := hstep
      rw [foldlM_cons, hst']
      exact ih st'
  obtain ⟨st, hst⟩ := hloop ([], 0)
  exact ⟨st.2, congrArg (Except.map Prod.snd) hst⟩

/-- The answer tells the mount, unless it is an error. -/
theorem sameMount_of_resolvePath (h : t.WellFormed) (hroot : some [slash] ∈ t.paths)
    (hp : p.head? = some slash) (hq : q.head? = some slash)
    (heq : resolvePath t p = resolvePath t q) :
    t.SameMount p q ∨ ∃ err, resolvePath t p = .error err ∧ resolvePath t q = .error err := by
  obtain ⟨k, e, hk, hlongest, -, hresolve⟩ := exists_longest h hroot hp
  obtain ⟨k', e', hk', hlongest', -, hresolve'⟩ := exists_longest h hroot hq
  cases hanswer : resolvePath t p with
  | error err => exact .inr ⟨err, rfl, heq ▸ hanswer⟩
  | ok answer =>
    rw [hanswer] at heq hresolve
    have hfirst : ∀ {r : Except VfsError Nat} {k : Nat},
        .ok answer = r.map (fun inode => (k, inode)) → answer.1 = k := by
      intro r k hr
      cases r with
      | error err => cases hr
      | ok inode =>
        cases hr
        rfl
    rw [← hfirst hresolve] at hk
    rw [← hfirst (heq.trans hresolve')] at hk'
    obtain hpath : e.path = e'.path := Option.some.inj (Option.some.inj (hk.symm.trans hk'))
    exact .inl ⟨e.path, hlongest, hpath ▸ hlongest'⟩

/-- With every name everywhere no path gives an error. -/
theorem resolvePath_everywhere (h : t.WellFormed) (hroot : some [slash] ∈ t.paths)
    (hp : p.head? = some slash) (err : VfsError) : resolvePath t.everywhere p ≠ .error err := by
  have hpaths := t.paths_everywhere
  obtain ⟨k, e, -, -, hentry, hresolve⟩ :=
    exists_longest (h.of_paths hpaths) (hpaths ▸ hroot) hp
  have hfs : e.fs = allNames := by
    rw [everywhere, getElem?_map] at hentry
    obtain ⟨slot, -, hslot⟩ := Option.map_eq_some_iff.mp hentry
    obtain ⟨e, -, rfl⟩ := Option.map_eq_some_iff.mp hslot
    rfl
  obtain ⟨inode, hwalk⟩ := walk_allNames (components (remaining p e.path.length))
  rw [hresolve, hfs, hwalk]
  exact nofun

end MountTable

namespace MountTable

def single (name : Name) : Filesystem where
  rootInode := 0
  lookup inode n :=
    if inode ≠ 0 then .error .notADirectory else if n = name then .ok 1 else .error .notFound
  isDirectory inode := inode = 0
  lookup_file _ _ h := if_pos (of_decide_eq_false h)

def sample : MountTable :=
  (new.step ⟨[47], single [102]⟩).step ⟨[47, 100, 101, 118], single [110, 117, 108, 108]⟩

theorem runs_sample : Runs MountTable.step (fun _ _ => True) new sample :=
  .event _ (.event _ .start trivial) trivial

end MountTable

end Thumos
