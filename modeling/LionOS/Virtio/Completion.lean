import LionOS.Virtio.Publication

/-!
# Completions

Every request uses the same buffer, and `xfer` takes any change of `used.idx` for its own
completion. That is right as long as no earlier request is still under way when it starts.
A call that gives up leaves its request with the device, which may still complete it during
the next one.
-/

namespace LionOS.Virtio

variable {q : Queue} {disk : Nat → Nat → UInt8} {may : Sys → Prop} {s s' : Sys} {lba : Nat}

/-- No request is outstanding: `avail.idx` is the driver's own count, and the device has
fetched and completed that much. -/
def Settled (s : Sys) : Prop :=
  s.mem.availIdx = s.availHead ∧ s.seen = s.availHead ∧ s.jobs = []

/-- The buffer holds the sector. -/
def Holds (disk : Nat → Nat → UInt8) (lba : Nat) (m : Shared) : Prop :=
  ∀ i < 512, m.data i = disk lba i

/-- The request is published and not fetched yet. -/
def Pending (lba : Nat) (s : Sys) : Prop :=
  s.mem.sector = lba ∧ s.mem.availIdx = s.seen + 1 ∧ s.jobs = []

/-- The device is at work on the request and on no other. -/
def Working (disk : Nat → Nat → UInt8) (lba : Nat) (s : Sys) : Prop :=
  s.mem.availIdx = s.seen ∧
    ((∃ n, s.jobs = [⟨lba, .writing n⟩] ∧ ∀ i < n, s.mem.data i = disk lba i) ∨
      (s.jobs = [⟨lba, .answered⟩] ∧ (s.mem.status = 0 → Holds disk lba s.mem)))

/-- The request is completed. -/
def Finished (disk : Nat → Nat → UInt8) (lba : Nat) (s : Sys) : Prop :=
  s.mem.availIdx = s.seen ∧ s.jobs = [] ∧ (s.mem.status = 0 → Holds disk lba s.mem)

/-- The only element of a list. -/
private theorem eq_of_singleton_eq_append {α : Type} {a x : α} {before after : List α}
    (h : [a] = before ++ x :: after) : before = [] ∧ x = a ∧ after = [] := by
  cases before with
  | nil =>
    obtain ⟨rfl, rfl⟩ := List.cons.inj h
    exact ⟨rfl, rfl, rfl⟩
  | cons y before =>
    have htail := (List.cons.inj h).2
    simp at htail

/-- The device takes the one request there is a step further, or completes it. -/
theorem DeviceStep.underway (h : DeviceStep disk s s')
    (hs : Pending lba s ∨ Working disk lba s) :
    (Working disk lba s' ∧ s'.mem.usedIdx = s.mem.usedIdx) ∨ Finished disk lba s' := by
  rcases hs with ⟨hsector, hidx, hjobs⟩ | ⟨hidx, ⟨n, hjobs, hdata⟩ | ⟨hjobs, hstatus⟩⟩
  · cases h with
    | fetch hnew =>
      refine .inl ⟨⟨hidx, .inl ⟨0, ?_, fun i hi => absurd hi (Nat.not_lt_zero i)⟩⟩, rfl⟩
      simp [hjobs, hsector]
    | data hj _ => simp [hjobs] at hj
    | status hj _ => simp [hjobs] at hj
    | used hj => simp [hjobs] at hj
  · cases h with
    | fetch hnew => exact absurd hidx hnew
    | data hj hn =>
      obtain ⟨rfl, hjob, rfl⟩ := eq_of_singleton_eq_append (hjobs.symm.trans hj)
      cases hjob
      refine .inl ⟨⟨hidx, .inl ⟨n + 1, rfl, fun i hi => ?_⟩⟩, rfl⟩
      dsimp only
      by_cases hin : i = n
      · rw [hin, Function.update_self]
      · rw [Function.update_of_ne hin]
        exact hdata i (by omega)
    | status hj hv =>
      obtain ⟨rfl, hjob, rfl⟩ := eq_of_singleton_eq_append (hjobs.symm.trans hj)
      cases hjob
      refine .inl ⟨⟨hidx, .inr ⟨rfl, fun hzero i hi => hdata i ?_⟩⟩, rfl⟩
      rw [hv hzero]
      exact hi
    | used hj =>
      obtain ⟨-, hjob, -⟩ := eq_of_singleton_eq_append (hjobs.symm.trans hj)
      cases hjob
  · cases h with
    | fetch hnew => exact absurd hidx hnew
    | data hj _ =>
      obtain ⟨-, hjob, -⟩ := eq_of_singleton_eq_append (hjobs.symm.trans hj)
      cases hjob
    | status hj _ =>
      obtain ⟨-, hjob, -⟩ := eq_of_singleton_eq_append (hjobs.symm.trans hj)
      cases hjob
    | used hj =>
      obtain ⟨rfl, hjob, rfl⟩ := eq_of_singleton_eq_append (hjobs.symm.trans hj)
      exact .inr ⟨hidx, rfl, hstatus⟩

/-- The request of a call has been published: it is under way or completed. -/
def Sent (disk : Nat → Nat → UInt8) (lba : Nat) (s : Sys) : Prop :=
  (Pending lba s ∨ Working disk lba s) ∨ Finished disk lba s

/-- What holds in each state of the driver, if every call started with no request
outstanding. -/
def Kept (q : Queue) (disk : Nat → Nat → UInt8) (s : Sys) : Prop :=
  match s.driver with
  | .idle => True
  | .storing r rest =>
    (∃ l, rest = l ++ publish q s.availHead ∧ (∀ st ∈ l, st.prepares) ∧
      (s.mem.stores l).sector = r.lba ∧ Settled s) ∨
      ((∃ slot, rest = [.ring slot 0] ∨ rest = []) ∧ Sent disk r.lba s)
  | .poking r => Sent disk r.lba s
  | .polling r done _ =>
    ((Pending r.lba s ∨ Working disk r.lba s) ∧ s.mem.usedIdx = done) ∨ Finished disk r.lba s
  | .copying r n =>
    Finished disk r.lba s ∧ (s.mem.status = 0 → ∀ i < n, r.out i = disk r.lba i)
  | .returned r ok => ok = true → ∀ i < 512, r.out i = disk r.lba i

theorem Sent.deviceStep (h : Sent disk lba s) (hstep : DeviceStep disk s s') :
    Sent disk lba s' := by
  rcases h with h | ⟨hidx, hjobs, -⟩
  · rcases hstep.underway h with ⟨hwork, -⟩ | hfin
    · exact .inl (.inr hwork)
    · exact .inr hfin
  · exact (hstep.not_quiet hidx hjobs).elim

theorem Kept.deviceStep (h : Kept q disk s) (hstep : DeviceStep disk s s') :
    Kept q disk s' := by
  unfold Kept at h ⊢
  rw [hstep.driver_eq]
  cases hd : s.driver with
  | idle => trivial
  | storing r rest =>
    rw [hd] at h
    rcases h with ⟨l, -, -, -, hidx, hseen, hjobs⟩ | ⟨hrest, hsent⟩
    · exact (hstep.not_quiet (hidx.trans hseen.symm) hjobs).elim
    · exact .inr ⟨hrest, hsent.deviceStep hstep⟩
  | poking r =>
    rw [hd] at h
    exact h.deviceStep hstep
  | polling r done left =>
    rw [hd] at h
    rcases h with ⟨hunder, hused⟩ | ⟨hidx, hjobs, -⟩
    · rcases hstep.underway hunder with ⟨hwork, hsame⟩ | hfin
      · exact .inl ⟨.inr hwork, hsame.trans hused⟩
      · exact .inr hfin
    · exact (hstep.not_quiet hidx hjobs).elim
  | copying r n =>
    rw [hd] at h
    obtain ⟨⟨hidx, hjobs, -⟩, -⟩ := h
    exact (hstep.not_quiet hidx hjobs).elim
  | returned r ok =>
    rw [hd] at h
    exact h

/-- Laying down a request writes its sector. -/
theorem sector_prepare (m : Shared) (lba : Nat) : (m.stores (prepare q lba)).sector = lba := rfl

/-- One store of a call. The store of `avail.idx` publishes the request. -/
theorem Kept.store {r : Read} {st : Store} {rest : List Store} (h : Kept q disk s)
    (hs : s.driver = .storing r (st :: rest)) :
    Kept q disk { s with mem := s.mem.store st, driver := .storing r rest } := by
  rw [Kept, hs] at h
  rcases h with ⟨l, hrest, hl, hsector, hidx, hseen, hjobs⟩ | ⟨⟨slot, hring | hnil⟩, hsent⟩
  · cases l with
    | nil =>
      obtain ⟨rfl, rfl⟩ := List.cons.inj hrest
      refine .inr ⟨⟨_, .inl rfl⟩, .inl (.inl ⟨hsector, ?_, hjobs⟩)⟩
      exact congrArg (· + 1) hseen.symm
    | cons st' l =>
      obtain ⟨rfl, rfl⟩ := List.cons.inj hrest
      refine .inl ⟨l, rfl, fun st hst => hl st (List.mem_cons_of_mem _ hst), hsector, ?_, hseen,
        hjobs⟩
      exact (Store.prepares.availIdx_eq (hl st List.mem_cons_self)).trans hidx
  · obtain ⟨rfl, rfl⟩ := List.cons.inj hring
    exact .inr ⟨⟨slot, .inr rfl⟩, hsent⟩
  · cases hnil

theorem Kept.driverStep (h : Kept q disk s) (hstep : DriverStep q Settled s s') :
    Kept q disk s' := by
  cases hstep with
  | call r _ hmay =>
    exact .inl ⟨prepare q r.lba, rfl, prepares_of_mem_prepare, sector_prepare s.mem r.lba, hmay⟩
  | store hs => exact h.store hs
  | placed hs =>
    rw [Kept, hs] at h
    rcases h with ⟨l, hrest, -⟩ | ⟨-, hsent⟩
    · simp [publish] at hrest
    · exact hsent
  | look hs =>
    rw [Kept, hs] at h
    rcases h with hunder | hfin
    · exact .inl ⟨hunder, rfl⟩
    · exact .inr hfin
  | again hs _ =>
    rw [Kept, hs] at h
    exact h
  | giveUp hs => exact fun hok => absurd hok (by decide)
  | arrived hs hused =>
    rw [Kept, hs] at h
    rcases h with ⟨-, hsame⟩ | hfin
    · exact absurd hsame hused
    · exact ⟨hfin, fun _ i hi => absurd hi (Nat.not_lt_zero i)⟩
  | copy hs hn =>
    rw [Kept, hs] at h
    obtain ⟨hfin, hout⟩ := h
    refine ⟨hfin, fun hzero i hi => ?_⟩
    dsimp only
    rcases Nat.lt_succ_iff_lt_or_eq.mp hi with hlt | rfl
    · rw [Function.update_of_ne (Nat.ne_of_lt hlt)]
      exact hout hzero i hlt
    · rw [Function.update_self]
      exact hfin.2.2 hzero i hn
  | finish hs =>
    rw [Kept, hs] at h
    obtain ⟨hfin, hout⟩ := h
    intro hok
    exact hout (by simpa using hok)

theorem Kept.run (h : Kept q disk s) (hrun : Reaches q disk Settled s s') : Kept q disk s' := by
  induction hrun with
  | refl => exact h
  | tail _ hstep ih =>
    rcases hstep with hdriver | hdevice
    · exact ih.driverStep hdriver
    · exact ih.deviceStep hdevice

/-- **When a read returns the sector that was asked for.** Whatever the frames held at the
start, in every run whose calls all start with no request outstanding, under every schedule
of the device: whenever `xfer` has returned `true`, its buffer holds the sector. -/
theorem xfer_reads_sector (q : Queue) (disk : Nat → Nat → UInt8) (m : Shared) {r : Read}
    (hrun : Reaches q disk Settled (.start m) s) (hret : s.driver = .returned r true) :
    ∀ i < 512, r.out i = disk r.lba i := by
  have hstart : Kept q disk (.start m) := trivial
  have hkept := hstart.run hrun
  rw [Kept, hret] at hkept
  exact hkept rfl

/-- `f` on the first `n` bytes and `g` behind them. -/
def overlay (n : Nat) (f g : Nat → UInt8) : Nat → UInt8 := fun i => if i < n then f i else g i

theorem update_overlay (n : Nat) (f g : Nat → UInt8) :
    Function.update (overlay n f g) n (f n) = overlay (n + 1) f g := by
  funext i
  by_cases hi : i = n
  · rw [hi, Function.update_self, overlay, if_pos (Nat.lt_succ_self n)]
  · rw [Function.update_of_ne hi, overlay, overlay]
    exact if_congr (by omega) rfl rfl

/-- The device writes a sector. -/
theorem writing_run {sector n : Nat} (hn : n ≤ 512) (h : s.jobs = [⟨sector, .writing 0⟩]) :
    Reaches q disk may s
      { s with
        mem := { s.mem with data := overlay n (disk sector) s.mem.data }
        jobs := [⟨sector, .writing n⟩] } := by
  induction n with
  | zero =>
    have hnone : overlay 0 (disk sector) s.mem.data = s.mem.data := rfl
    rw [hnone, ← h]
  | succ n ih =>
    refine (ih (by omega)).tail (.inr ?_)
    rw [← update_overlay]
    exact @DeviceStep.data disk _ [] [] sector n rfl hn

/-- The driver copies the data out. -/
theorem copying_run {r : Read} {n : Nat} (hn : n ≤ 512) (h : s.driver = .copying r 0) :
    Reaches q disk may s
      { s with driver := .copying { r with out := overlay n s.mem.data r.out } n } := by
  induction n with
  | zero =>
    have hnone : overlay 0 s.mem.data r.out = r.out := rfl
    rw [hnone, ← h]
  | succ n ih =>
    refine (ih (by omega)).tail (.inl ?_)
    rw [← update_overlay]
    exact @DriverStep.copy q may _ { r with out := overlay n s.mem.data r.out } n rfl hn

/-- The device completes the request it is at work on, with everything in order. -/
theorem completing_run {sector : Nat} (h : s.jobs = [⟨sector, .writing 0⟩]) :
    Reaches q disk may s
      { s with
        mem := { s.mem with
          data := overlay 512 (disk sector) s.mem.data
          status := 0
          usedIdx := s.mem.usedIdx + 1 }
        jobs := [] } := by
  have hwrite : Reaches q disk may s _ := writing_run le_rfl h
  have hstatus := hwrite.tail (.inr (@DeviceStep.status disk _ [] [] sector 512 0 rfl fun _ => rfl))
  exact hstatus.tail (.inr (@DeviceStep.used disk _ [] [] sector rfl))

/-- A poll that sees the completion takes the data. -/
theorem taking_run {r : Read} {done : UInt16} {left : Nat}
    (h : s.driver = .polling r done (left + 1)) (hused : s.mem.usedIdx ≠ done) :
    Reaches q disk may s
      { s with
        driver := .returned { r with out := overlay 512 s.mem.data r.out }
          (s.mem.status == 0) } :=
  .head (.inl (.arrived h hused)) ((copying_run le_rfl rfl).tail (.inl (.finish rfl)))

theorem usedIdx_ne (u : UInt16) : u + 1 ≠ u := by
  intro hu
  have hone : (1 : UInt16) = 0 := by grind
  exact absurd hone (by decide)

/-- A read that the device completes while it is polling. -/
theorem prompt_completion (q : Queue) (disk : Nat → Nat → UInt8) {m : Shared}
    (hidx : m.availIdx = 0) (r : Read) :
    ∃ s out, Reaches q disk Settled (.start m) s ∧ s.driver = .returned ⟨r.lba, out⟩ true := by
  have hcall : Reaches q disk Settled (.start m) _ := call_run r trivial ⟨hidx, rfl, rfl⟩
  have hfetch := hcall.tail (.inr (.fetch (show (0 + 1 : UInt16) ≠ 0 by decide)))
  have hpolling := hfetch.trans (poll_begins rfl)
  have hcompleted := hpolling.trans (@completing_run q disk _ _ r.lba rfl)
  have htaken := hcompleted.trans (@taking_run q disk _ _ r _ (pollBound - 1) rfl (usedIdx_ne _))
  exact ⟨_, _, htaken, rfl⟩

/-- Two reads: the device fetches the first, which gives up, and completes it while the
second is polling. The second returns the first one's sector. -/
theorem late_completion (q : Queue) (disk : Nat → Nat → UInt8) (m : Shared) (r r' : Read) :
    ∃ s out, Reaches q disk (fun _ => True) (.start m) s ∧
      s.driver = .returned ⟨r'.lba, out⟩ true ∧ ∀ i < 512, out i = disk r.lba i := by
  have hfirst : Reaches q disk (fun _ => True) (.start m) _ := call_run r trivial trivial
  -- The device fetches the request as soon as it is published.
  have hfetch := hfirst.tail (.inr (.fetch (show (0 + 1 : UInt16) ≠ 0 by decide)))
  have hgivenUp := (hfetch.trans (poll_begins rfl)).trans (polling_run pollBound rfl rfl)
  have hsecond := (hgivenUp.trans (call_run r' trivial trivial)).trans (poll_begins rfl)
  -- The buffer is the second request's by now, but the job is the first one's.
  have hcompleted := hsecond.trans (@completing_run q disk _ _ r.lba rfl)
  have htaken := hcompleted.trans (@taking_run q disk _ _ r' _ (pollBound - 1) rfl (usedIdx_ne _))
  exact ⟨_, _, htaken, rfl, fun i hi => (if_pos hi).trans (if_pos hi)⟩

/-- Frames of zeros. -/
def zeroFrames : Shared := { usedFrames with ring := fun _ => 0 }

/-- A disk whose sectors are filled with their number. -/
def numberedDisk (sector _i : Nat) : UInt8 := UInt8.ofNat sector

/-- A read of sector 7 that is completed in time. -/
theorem xfer_reads_sector_seven :
    ∃ s out, Reaches smallQueue numberedDisk Settled (.start zeroFrames) s ∧
      s.driver = .returned ⟨7, out⟩ true ∧ ∀ i < 512, out i = 7 := by
  obtain ⟨s, out, hrun, hret⟩ :=
    prompt_completion smallQueue numberedDisk (m := zeroFrames) rfl ⟨7, fun _ => 0⟩
  exact ⟨s, out, hrun, hret, xfer_reads_sector smallQueue numberedDisk zeroFrames hrun hret⟩

/-- A read of sector 9 returns `true` with the bytes of sector 7. -/
theorem late_completion_taken :
    ∃ s out, Reaches smallQueue numberedDisk (fun _ => True) (.start zeroFrames) s ∧
      s.driver = .returned ⟨9, out⟩ true ∧ ∀ i < 512, out i = 7 ∧ out i ≠ numberedDisk 9 i := by
  obtain ⟨s, out, hrun, hret, hout⟩ :=
    late_completion smallQueue numberedDisk zeroFrames ⟨7, fun _ => 0⟩ ⟨9, fun _ => 0⟩
  refine ⟨s, out, hrun, hret, fun i hi => ?_⟩
  rw [hout i hi, numberedDisk, numberedDisk]
  decide

end LionOS.Virtio
