import Thumos.Lfs.Persistence

/-!
# Files over whole runs

A call has its effect or none, in every state of every run.  What was written to a file is read back after any further calls on other files,
failed ones included, and after compactions, `sync` and `mount`.
-/

namespace Thumos

open StateExcept

variable {dev : Device} {s s' s₁ s₂ s₃ : Lfs} {id offset : Nat} {buf bytes : List UInt8}

namespace Lfs

/-- The event is about other inodes than `id`, or about none. -/
def Leaves (id : Nat) (s : Lfs) : Event → Prop
  | .call (.write i _ _) | .call (.truncate i _) => i ≠ id
  | .call (.create dir _ _) => dir ≠ id ∧ s.nextInode ≠ id
  | .call (.unlink dir name) => dir ≠ id ∧
      (Observation.lookup dir name).answer (meaning s.core) ≠ some (.inode id)
  | .call (.observe _) | .call .compact => True
  | .sync | .remount => s.checkpointSequence + 1 < u64Size

/-- The inode `id` stands for the same file. -/
def SameFile (id : Nat) (s s' : Lfs) : Prop := meaning s'.core id = meaning s.core id

theorem Leaves.effect {c : Call} (h : Leaves id s (.call c)) (he : c.Effect s s') :
    SameFile id s s' := by
  unfold SameFile
  cases c with
  | observe o => rw [he.1]
  | compact => rw [he.1]
  | write i offset buf =>
    obtain ⟨m, -, -, -, hmean⟩ := he
    split at hmean
    · rw [hmean]
    · obtain ⟨m', -, hmean⟩ := hmean
      rw [hmean, Function.update_of_ne (Ne.symm h)]
  | truncate i size =>
    obtain ⟨m, m', -, -, -, -, hmean⟩ := he
    rw [hmean, Function.update_of_ne (Ne.symm h)]
  | create dir name ty =>
    obtain ⟨m, m', ns, -, -, -, -, -, -, hmean⟩ := he
    rw [hmean, Function.update_of_ne h.1.symm, Function.update_of_ne h.2.symm]
  | unlink dir name =>
    obtain ⟨m, m', ns, target, -, -, -, hanswer, -, -, hmean⟩ := he
    have htarget : id ≠ target := by
      rintro rfl
      exact h.2 hanswer
    rw [hmean, Function.update_of_ne htarget, Function.update_of_ne h.1.symm]

theorem Leaves.failure {c : Call} (h : Leaves id s (.call c)) (hf : c.Failure s s') :
    SameFile id s s' := by
  unfold SameFile
  rcases hf with ⟨hmean, -⟩ | ⟨⟨dir, name, ty, rfl⟩, -, hmean | hmean⟩
  · rw [hmean]
  · rw [hmean]
  · rw [hmean, Function.update_of_ne h.2.symm]

theorem Next.sameFile (h : Next (Leaves id) s s') (hv : Valid s) : SameFile id s s' := by
  cases h with
  | call c hc =>
    refine after_of_wp (P := SameFile id s) (wp_conseq (c.run_spec hv.good hv.nextInode) ?_ ?_)
    · rintro - s' ⟨-, -, heffect⟩
      exact hc.effect heffect
    · rintro - s' ⟨-, -, hfail | ⟨-, heffect⟩⟩
      · exact hc.failure hfail
      · exact hc.effect heffect
  | sync =>
    refine after_of_wp (P := SameFile id s) (wp_conseq (sync_synced hv) ?_ ?_)
    · exact fun _ _ h => congrFun h.meaning id
    · exact fun _ _ h => congrFun h.meaning id
  | remount hseq hsync hm =>
    obtain ⟨hv₂, hres⟩ := hv.remount hsync hseq hm
    have hv₁ := wp_ok hv.sync_spec hsync hseq
    rw [SameFile, (hres.good hv₁.good hv₂.good.log.coherent).2,
      (wp_ok (sync_synced hv) hsync).meaning]

theorem Valid.sameFile (hv : Valid s) (h : Relation.ReflTransGen (Next (Leaves id)) s s') :
    Valid s' ∧ SameFile id s s' := by
  induction h with
  | refl => exact ⟨hv, rfl⟩
  | tail _ hstep ih =>
    refine ⟨hstep.valid (fun s e he => ?_) ih.1, (hstep.sameFile ih.1).trans ih.2⟩
    cases e with
    | call c => trivial
    | sync => exact he
    | remount => exact he

end Lfs

theorem Node.Written.read_back {m m' : Node} (h : m.Written offset buf m') :
    (List.range (min buf.length (m'.size - offset))).map (fun k => m'.byteAt (offset + k)) = buf := by
  have hmin : min buf.length (m'.size - offset) = buf.length := by
    have := h.size
    omega
  rw [hmin]
  refine List.ext_getElem (by simp) fun k hk hk' => ?_
  rw [List.getElem_map, List.getElem_range, h.bytes, if_pos (by omega), Nat.add_sub_cancel_left,
    List.getD_eq_getElem?_getD, List.getElem?_eq_getElem hk', Option.getD_some]

end Thumos
