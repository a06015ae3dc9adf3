import MinweightStore.Base.Follows
import MinweightStore.Store.ActiveSegment

/-!
# Stores that are broken off

A process may be killed between any two bytes that it stores into the mapping of a segment.

* `tracks_storeBytes`, `tracks_mapHeader`, `tracks_append` — a part of the store that makes no other
  calls does what it does when it survives, or is killed;
* `TearingFile`, `killed_mapHeader` — a header that is being written field by field is accepted by
  nobody before its last store;
* `StoringFile`, `killed_append` — a record that is being stored byte by byte lies behind the used part.
-/

namespace MinweightStore.Store

open Minpatricia (ByteView Position kMaxKeySize)

section Stores

variable {env : Env} {generation size fileNo offset : ℕ} {w w₀ : World} {f : WalFile}
  {data : List UInt8}

-- the header check runs over 4096 bytes and is never to be evaluated here
attribute [local irreducible] isZeroBytes

/-- One store into a mapping: the process may be killed behind some bytes of it. -/
theorem wp_storeBytes {Q : Unit → World → Prop} {E : Fault Status → World → Prop}
    (hstored : Q () (w.onDisk (w.disk.storeBytes generation fileNo offset data) (w.clock + 1)))
    (hkilled : ∀ n, env (storeSite offset) w.clock = .killed n →
      E .killed (w.onDisk (w.disk.storeBytes generation fileNo offset (data.take n)) w.clock)) :
    Prog.wp (storeBytes env generation fileNo offset data) Q E w := by
  rw [Prog.wp, storeBytes]
  cases hd : env (storeSite offset) w.clock with
  | succeeds => exact hstored
  | fails n => exact hstored
  | killed n => exact hkilled n hd

/-- One store of a field of a header, which no kill splits. -/
theorem wp_storeField (henv : env.WholeFields) (hoffset : offset < kWalHeaderSize)
    {Q : Unit → World → Prop} {E : Fault Status → World → Prop}
    (hstored : Q () (w.onDisk (w.disk.storeBytes generation fileNo offset data) (w.clock + 1)))
    (hkilled : E .killed w) : Prog.wp (storeBytes env generation fileNo offset data) Q E w := by
  refine wp_storeBytes hstored (fun n hn => ?_)
  rw [storeSite_header hoffset] at hn
  obtain rfl := henv _ n hn
  rw [List.take_zero, Disk.storeBytes_nil]
  exact hkilled

/-- A store into a mapping is made, or the process is killed at it. -/
theorem tracks_storeBytes {P : Prop} (hP : ∀ t n, env (storeSite offset) t = .killed n → P)
    (generation fileNo : ℕ) (data : List UInt8) :
    Prog.Tracks P (storeBytes env generation fileNo offset data)
      (storeBytes .reliable generation fileNo offset data) := by
  intro w
  rw [storeBytes_ok Env.reliable_survives.stores]
  cases hd : env (storeSite offset) w.clock with
  | succeeds => exact Or.inl (storeBytes_stored (fun n h => nomatch hd.symm.trans h) _ _ _)
  | fails n => exact Or.inl (storeBytes_stored (fun n h => nomatch hd.symm.trans h) _ _ _)
  | killed n => exact Or.inr ⟨hP _ n hd, _, storeBytes_killed hd _ _ _⟩

/-! ### Headers -/

/-- The header of a mapped file is written by stores into the mapping. -/
theorem tracks_mapHeader (generation fileNo size : ℕ) (metadataDirty : Bool) :
    Prog.Tracks (¬ env.SparesHeaders) (WalSegment.mapHeader env generation fileNo size metadataDirty)
      (WalSegment.mapHeader .reliable generation fileNo size metadataDirty) := by
  have hfield : ∀ {offset}, offset < kWalHeaderSize → ∀ data, Prog.Tracks (¬ env.SparesHeaders)
      (storeBytes env generation fileNo offset data)
      (storeBytes .reliable generation fileNo offset data) := fun hoffset data =>
    tracks_storeBytes (fun t n hn hspares =>
      hspares t n ((congrArg (env · t) (storeSite_header hoffset)).symm.trans hn)) _ _ data
  refine (Prog.Tracks.refl get).bind fun w => ?_
  simp only
  split
  · refine Prog.Tracks.bind ?_ fun _ => .refl _
    exact (hfield (by decide) _).bind fun _ => (hfield (by decide) _).bind fun _ =>
      hfield (by decide) _
  · exact .refl _

/-- A zero header is read as zeros. -/
theorem readBytes_zero {m : Mapping} (h : isZeroBytes m kWalHeaderSize = true) {offset n : ℕ}
    (hn : offset + n ≤ kWalHeaderSize) : readBytes m offset n = List.replicate n 0 := by
  rw [isZeroBytes, List.all_eq_true] at h
  refine List.eq_replicate_iff.mpr ⟨length_readBytes m offset n, fun b hb => ?_⟩
  obtain ⟨i, hi, rfl⟩ := List.mem_map.mp hb
  have hi := List.mem_range.mp hi
  exact of_decide_eq_true (h (offset + i) (List.mem_range.mpr (by omega)))

/-- **A header with a magic** that is not accepted otherwise. -/
theorem not_openable_of_magic (hsize : f.size ≠ 0) (hmagic : readBytes f.bytes 0 8 = kWalHeaderMagic)
    (h : ¬ HeaderOk f.bytes f.size) : ¬ Openable f f.size := by
  rintro (h0 | ⟨_, hzero | hheader⟩)
  · exact hsize h0
  · rw [readBytes_zero hzero (by decide)] at hmagic
    exact absurd hmagic (by decide)
  · exact h hheader

/-- **A header of which only the magic is there**: its version is zero. -/
theorem not_openable_magic (hsize : f.size ≠ 0) (hzero : isZeroBytes f.bytes kWalHeaderSize = true) :
    ¬ Openable ⟨f.size, writeBytes f.bytes 0 kWalHeaderMagic⟩ f.size := by
  refine not_openable_of_magic (f := ⟨f.size, writeBytes f.bytes 0 kWalHeaderMagic⟩) hsize
    (readBytes_writeBytes f.bytes 0 kWalHeaderMagic) (fun h => ?_)
  have hversion : readBytes (writeBytes f.bytes 0 kWalHeaderMagic) kWalHeaderVersionOffset 4 =
      List.replicate 4 0 := by
    rw [readBytes_writeBytes_of_disjoint (Or.inr (by decide)), readBytes_zero hzero (by decide)]
  have hv := h.version
  rw [hversion] at hv
  exact absurd hv (by decide)

/-- **A header without its used offset.** -/
theorem not_openable_version (hsize : f.size ≠ 0)
    (hzero : isZeroBytes f.bytes kWalHeaderSize = true) :
    ¬ Openable ⟨f.size, writeBytes (writeBytes f.bytes 0 kWalHeaderMagic) kWalHeaderVersionOffset
      (store32 kWalVersion)⟩ f.size := by
  let m := writeBytes (writeBytes f.bytes 0 kWalHeaderMagic) kWalHeaderVersionOffset
    (store32 kWalVersion)
  have hmagic : readBytes m 0 8 = kWalHeaderMagic := by
    rw [readBytes_writeBytes_of_disjoint (Or.inl (by decide))]
    exact readBytes_writeBytes f.bytes 0 kWalHeaderMagic
  have hused : readBytes m kWalHeaderUsedOffset 8 = List.replicate 8 0 := by
    rw [readBytes_writeBytes_of_disjoint (Or.inr (by decide)),
      readBytes_writeBytes_of_disjoint (Or.inr (by decide)), readBytes_zero hzero (by decide)]
  refine not_openable_of_magic (f := ⟨f.size, m⟩) hsize hmagic (fun h => ?_)
  have hlo := h.used_lo
  rw [headerUsed, hused] at hlo
  exact absurd hlo (by decide)

/-- **A header that is being written**: the file is as it was, or its header is torn. -/
def TearingFile (generation fileNo : ℕ) (d₀ d : Disk) : Prop :=
  d = d₀ ∨ ∃ f, ¬ Openable f f.size ∧ d = d₀.setWalFile generation fileNo f

/-- **`InitHeader`** may be stopped behind the magic, and behind the version. -/
theorem wp_initHeader (henv : env.WholeFields) (hf : w.disk.walFile? generation fileNo = some f)
    (hsize : f.size ≠ 0) (hzero : isZeroBytes f.bytes kWalHeaderSize = true) :
    Prog.wp (WalSegment.initHeader env generation fileNo) (fun _ _ => True)
      (fun _ w' => TearingFile generation fileNo w.disk w'.disk) w := by
  rw [WalSegment.initHeader, Prog.wp_bind]
  refine wp_storeField henv (by decide) ?_ (Or.inl rfl)
  rw [Prog.wp_bind, Disk.storeBytes_eq hf]
  refine wp_storeField henv (by decide) ?_ (Or.inr ⟨_, not_openable_magic hsize hzero, rfl⟩)
  rw [World.onDisk_disk, Disk.storeBytes_setWalFile]
  exact wp_storeField henv (by decide) trivial
    (Or.inr ⟨_, not_openable_version hsize hzero, rfl⟩)

/-- **Where the header of a mapped file is killed.** -/
theorem killed_mapHeader (henv : env.WholeFields) (hf : w.disk.walFile? generation fileNo = some f)
    (hsize : f.size ≠ 0) (size : ℕ) (metadataDirty : Bool) :
    Prog.wp (WalSegment.mapHeader env generation fileNo size metadataDirty) (fun _ _ => True)
      (fun fault w' => fault = .killed → TearingFile generation fileNo w.disk w'.disk) w := by
  have hbytes : w.disk.mapping generation fileNo = f.bytes := by
    rw [Disk.mapping, hf]
    rfl
  rw [WalSegment.mapHeader, Prog.wp_bind, Prog.wp_get, hbytes]
  simp only
  split
  · rename_i hzero
    exact Prog.wp_seq (wp_initHeader henv hf hsize hzero) (fun _ _ _ => trivial) (fun _ _ h _ => h)
  · refine Prog.wp_bind.mpr (Prog.wp_ofOutcome.mpr ⟨fun _ _ => trivial, fun fault hfault hkilled => ?_⟩)
    obtain ⟨message, hstatus⟩ := loadHeader_error hfault
    exact absurd (hstatus.symm.trans hkilled) (by simp)

/-! ### Records -/

theorem tracks_store (fileNo offset : ℕ) (data : List UInt8) :
    Prog.Tracks (¬ env.Stores) (WalSegment.store env fileNo offset data)
      (WalSegment.store .reliable fileNo offset data) :=
  fun w => tracks_storeBytes (fun t n hn hstores => hstores offset t n hn) w.records.generation
    fileNo data w

/-- **`Append`** makes no call but stores into the mapping. -/
theorem tracks_append (fileNo : ℕ) (op : UInt8) (key value : ByteView) :
    Prog.Tracks (¬ env.Stores) (WalSegment.append env fileNo op key value)
      (WalSegment.append .reliable fileNo op key value) := by
  have hrecord : ∀ start, Prog.Tracks (¬ env.Stores)
      (WalSegment.writeRecord env fileNo start op key value)
      (WalSegment.writeRecord .reliable fileNo start op key value) := fun start =>
    (tracks_store _ _ _).bind fun _ => (tracks_store _ _ _).bind fun _ =>
      (tracks_store _ _ _).bind fun _ => (tracks_store _ _ _).bind fun _ =>
        (tracks_store _ _ _).bind fun _ => (Prog.Tracks.refl get).bind fun _ => tracks_store _ _ _
  have hused : ∀ used, Prog.Tracks (¬ env.Stores) (WalSegment.writeUsed env fileNo used)
      (WalSegment.writeUsed .reliable fileNo used) := fun used =>
    (Prog.Tracks.refl _).bind fun _ => (Prog.Tracks.refl _).bind fun _ => tracks_store _ _ _
  exact (Prog.Tracks.refl _).bind fun _ => (Prog.Tracks.refl _).bind fun start =>
    (hrecord start).bind fun _ => (hused _).bind fun _ => .refl _

/-- **A record that is being stored** behind the used part of a file. -/
def StoringFile (generation fileNo : ℕ) (f : WalFile) (d₀ d : Disk) : Prop :=
  ∃ f', Untouched f f' ∧ d = d₀.setWalFile generation fileNo f'

/-- A store behind the used part. -/
theorem ends_storing (hlo : kWalHeaderSize ≤ headerUsed f.bytes) (hoffset : headerUsed f.bytes ≤ offset)
    (h : OnlyDisk (StoringFile w₀.records.generation fileNo f w₀.disk) w₀ w) :
    Prog.ends (WalSegment.store env fileNo offset data)
      (OnlyDisk (StoringFile w₀.records.generation fileNo f w₀.disk) w₀) w := by
  obtain ⟨_, t, rfl, f', hf', rfl⟩ := h
  have hstored : ∀ data t', OnlyDisk (StoringFile w₀.records.generation fileNo f w₀.disk) w₀
      (w₀.onDisk ((w₀.disk.setWalFile w₀.records.generation fileNo f').storeBytes
        w₀.records.generation fileNo offset data) t') := by
    intro data t'
    rw [Disk.storeBytes_setWalFile]
    refine ⟨_, _, rfl, _, hf'.trans (untouched_writeBytes f' data ?_) hlo, rfl⟩
    rw [hf'.used hlo]
    exact hoffset
  exact wp_storeBytes (hstored data _) (fun n _ => hstored (data.take n) _)

/-- **The stores of a record**, however they end. -/
theorem ends_storingRecord (hf : w.disk.walFile? w.records.generation fileNo = some f)
    (hlo : kWalHeaderSize ≤ headerUsed f.bytes) (op : UInt8) (key value : ByteView) :
    Prog.ends (WalSegment.writeRecord env fileNo (headerUsed f.bytes) op key value)
      (OnlyDisk (StoringFile w.records.generation fileNo f w.disk) w) w := by
  have hstart : OnlyDisk (StoringFile w.records.generation fileNo f w.disk) w w :=
    OnlyDisk.refl ⟨f, .refl f, (Disk.setWalFile_self hf).symm⟩
  refine Prog.ends_seq (ends_storing hlo (by omega) hstart) (fun _ w₁ h₁ => ?_)
  refine Prog.ends_seq (ends_storing hlo (by omega) h₁) (fun _ w₂ h₂ => ?_)
  refine Prog.ends_seq (ends_storing hlo (by omega) h₂) (fun _ w₃ h₃ => ?_)
  refine Prog.ends_seq (ends_storing hlo (by omega) h₃) (fun _ w₄ h₄ => ?_)
  refine Prog.ends_seq (ends_storing hlo (by omega) h₄) (fun _ w₅ h₅ => ?_)
  exact Prog.ends_get (ends_storing hlo (by omega) h₅)

/-- A position that is refused. -/
theorem makeRecordPosition_error {fault : Fault Status}
    (h : makeRecordPosition fileNo offset = .error fault) : ∃ status, fault = .status status := by
  rw [makeRecordPosition] at h
  split at h
  · exact ⟨_, (Except.error.inj h).symm⟩
  simp only at h
  split at h
  · exact ⟨_, (Except.error.inj h).symm⟩
  · exact absurd h (by simp)

/-- **Where an append is killed**: the used offset is still the old one. -/
theorem killed_append (henv : env.WholeFields) {seg : WalSegment}
    (hs : w.records.segments.get? fileNo = some seg)
    (hf : w.disk.walFile? w.records.generation fileNo = some f) (hused : seg.used = headerUsed f.bytes)
    (hlo : kWalHeaderSize ≤ headerUsed f.bytes) (op : UInt8) (key value : ByteView) :
    Prog.wp (WalSegment.append env fileNo op key value) (fun _ _ => True) (fun fault w' =>
      fault = .killed → StoringFile w.records.generation fileNo f w.disk w'.disk) w := by
  have hderef : WalSegment.deref fileNo w = .ok seg w := by rw [WalSegment.deref, hs]
  rw [WalSegment.append, Prog.wp_bind, Prog.wp_of_ok hderef, Prog.wp_bind]
  rcases room_cases seg key value with ⟨message, hroom⟩ | hroom
  · rw [hroom]
    intro hkilled
    cases hkilled
  rw [hroom, hused]
  show Prog.wp (WalSegment.writeRecord env fileNo _ op key value >>= _) _ _ w
  refine Prog.wp_seq (ends_storingRecord hf hlo op key value) (fun _ w₁ h₁ => ?_)
    (fun _ _ h _ => h.disk)
  obtain ⟨d, t, rfl, hd⟩ := h₁
  have hs' : (w.onDisk d t).records.segments.get? fileNo = some seg := hs
  -- behind the used offset nothing more is stored
  have hwrite : Prog.wp (WalSegment.writeUsed env fileNo (headerUsed f.bytes + recordSize key value))
      (fun _ _ => True) (fun _ w' => w'.disk = d) (w.onDisk d t) := by
    rcases writeUsed_whole henv hs' (headerUsed f.bytes + recordSize key value) with hrun | hrun
    · exact (Prog.wp_of_ok hrun).mpr trivial
    · exact (Prog.wp_of_error hrun).mpr rfl
  refine Prog.wp_seq hwrite (fun _ w₂ _ => ?_) (fun _ _ h _ => h.symm ▸ hd)
  refine Prog.wp_ofOutcome.mpr ⟨fun _ _ => trivial, fun fault hfault hkilled => ?_⟩
  obtain ⟨status, hstatus⟩ := makeRecordPosition_error hfault
  exact absurd (hstatus.symm.trans hkilled) (by simp)

end Stores

end MinweightStore.Store
