import MinweightStore.Store.Files

/-!
# The manifest file

`MANIFEST` is one record of 32 bytes with a checksum over the others.

* `decodeManifest_encode`, `returns_writeManifest`, `readManifest_ok` — the file that is written is
  read back;
* `decodeManifest_damaged` — a burst in front of the checksum, or in it, is refused;
* `manifest_roundtrip_damage` — **both, for `WriteManifest` and `ReadManifest`**.
-/

namespace MinweightStore.Store

open Minpatricia (ByteView)

/-! ### The bytes -/

@[simp] theorem length_manifestHead (generation : ℕ) : (manifestHead generation).length = 28 := by
  simp [manifestHead, kManifestMagic]

@[simp] theorem length_encodeManifest (generation : ℕ) :
    (encodeManifest generation).length = 32 := by
  simp [encodeManifest]

/-- The two parts of a manifest. -/
theorem encodeManifest_parts (generation : ℕ) :
    (encodeManifest generation).take 28 = manifestHead generation ∧
      (encodeManifest generation).drop 28 =
        store32 (bytesCRC (manifestHead generation ++ store32 0)) := by
  have hlen := length_manifestHead generation
  exact ⟨List.take_left' hlen, List.drop_left' hlen⟩

/-- The checks of `ReadManifest`: all but the last are about the bytes before the checksum. -/
theorem decodeManifest_cases (data : List UInt8) :
    (∃ message, decodeManifest data = err (corruptManifest message)) ∨
      bytesCRC (data.take 28 ++ store32 0) = load32 (data.drop 28) := by
  rw [decodeManifest]
  split
  · exact Or.inl ⟨_, rfl⟩
  split
  · exact Or.inl ⟨_, rfl⟩
  simp only
  split
  · exact Or.inl ⟨_, rfl⟩
  split
  · exact Or.inl ⟨_, rfl⟩
  · rename_i hcrc
    exact Or.inr (not_not.mp hcrc)

section Bytes

variable {generation : ℕ} (hpos : 0 < generation) (hlt : generation < 2 ^ 64)

include hpos hlt in
/-- **A manifest is decoded as it was encoded.** -/
theorem decodeManifest_encode :
    decodeManifest (encodeManifest generation) = .ok ⟨true, generation⟩ := by
  obtain ⟨htake, hdrop⟩ := encodeManifest_parts generation
  have hmagic : (encodeManifest generation).take 8 = kManifestMagic := rfl
  have hversion : (encodeManifest generation).drop 8 = store32 kManifestVersion ++
      (encodeManifest generation).drop 12 := rfl
  have hgeneration : (encodeManifest generation).drop 16 = store64 (UInt64.ofNat generation) ++
      (encodeManifest generation).drop 24 := rfl
  have hload : (load64 ((encodeManifest generation).drop 16)).toNat = generation := by
    rw [hgeneration, load64_store64_append, UInt64.toNat_ofNat']
    omega
  rw [decodeManifest, hmagic, hversion, load32_store32_append, htake, hdrop, load32_store32,
    if_neg (not_not.mpr rfl), if_neg (not_not.mpr rfl)]
  simp only [hload]
  rw [if_neg (by omega), if_neg (not_not.mpr rfl)]

/-- **A burst in front of the checksum, or in it, is refused.** -/
theorem decodeManifest_damaged {data : List UInt8} {start : ℕ}
    (h : Burst (encodeManifest generation) data start) (hat : start + 4 ≤ 28 ∨ start = 28) :
    ∃ message, decodeManifest data = err (corruptManifest message) := by
  refine (decodeManifest_cases data).resolve_right (fun hcrc => ?_)
  have hlen := h.length_eq
  rw [length_encodeManifest] at hlen
  obtain ⟨htake, hdrop⟩ := encodeManifest_parts generation
  have htaken : (data.take 28).length = 28 := by
    rw [List.length_take]
    omega
  have hdropped : (data.drop 28).length = 4 := by
    rw [List.length_drop]
    omega
  have hsplit : data.take 28 ++ data.drop 28 = data := List.take_append_drop 28 data
  have hencoded : manifestHead generation ++
      store32 (bytesCRC (manifestHead generation ++ store32 0)) = encodeManifest generation := rfl
  have hhead := length_manifestHead generation
  rcases hat with hat | hat
  · -- the checksum field is as it was, what it covers is not
    have hsame : data.drop 28 = store32 (bytesCRC (manifestHead generation ++ store32 0)) := by
      rw [← hdrop]
      exact (h.drop_eq (by omega)).symm
    rw [hsame, load32_store32] at hcrc
    have hne : manifestHead generation ≠ data.take 28 := by
      intro heq
      apply h.differ
      rw [← hsplit, ← heq, hsame, hencoded]
    have hburst : Burst (manifestHead generation ++ store32 0) (data.take 28 ++ store32 0) start := by
      refine Burst.append_right ⟨by rw [hhead, htaken], hne, fun i hi => ?_⟩ _
      by_cases hi28 : i < 28
      · apply h.within i
        rw [← hsplit, ← hencoded, List.getD_append _ _ _ _ (by omega),
          List.getD_append _ _ _ _ (by omega)]
        exact hi
      · rw [List.getD_eq_default _ _ (by omega), List.getD_eq_default _ _ (by omega)] at hi
        exact absurd rfl hi
    exact hburst.crc32Update_ne 0 hcrc.symm
  · -- what the checksum covers is as it was, the checksum field is not
    have hsame : data.take 28 = manifestHead generation := by
      rw [← htake]
      exact (h.take_eq (by omega)).symm
    rw [hsame] at hcrc
    apply h.differ
    rw [← hsplit, hsame, ← store32_load32 hdropped, ← hcrc, hencoded]

end Bytes

/-! ### The file -/

section File

variable {env : Env} {site : Site} {w : World} {generation : ℕ}

/-- `WriteManifest` leaves the encoded generation. -/
theorem returns_writeManifest : returns (writeManifest env site generation)
    (fun _ w' => w'.disk.manifest = some (encodeManifest generation)) w := by
  rw [writeManifest]
  split
  · trivial
  · refine returns_bind (Q := fun _ w' => w'.disk.manifestTmp = some []) (returns_syscall rfl)
      (fun _ w₁ h₁ => ?_)
    refine returns_mono (returns_publish (returns_writeAll ?_)) (fun _ w₂ h₂ => ?_)
    · rw [appendManifestTmp, h₁]
      show { w₁.disk with manifestTmp := some [] } = w₁.disk
      rw [← h₁]
    · rw [h₂, appendManifestTmp, h₁]
      rfl

theorem writeManifest_ok (h : env.ReliableAt site) (hg : generation ≠ 0) (w : World) : ∃ t,
    writeManifest env site generation w = .ok () (w.onDisk { w.disk with
      manifest := some (encodeManifest generation)
      manifestTmp := none } t) := by
  obtain ⟨t, hwrite⟩ := writeAll_ok h (encodeManifest generation) appendManifestTmp
    (w.onDisk { w.disk with manifestTmp := some [] } (w.clock + 1)) rfl
  obtain ⟨t', hpublish⟩ := publish_ok h
    (fun d => { d with manifest := d.manifestTmp, manifestTmp := none })
    (fun d => { d with manifestTmp := none }) hwrite
  refine ⟨t', ?_⟩
  rw [writeManifest, if_neg hg, Prog.bind_ok (syscall_ok h "open" _ w)]
  exact hpublish

/-- `ReadManifest` decodes the file. -/
theorem readManifest_ok (h : env.ReliableAt site) {data : List UInt8} (hlen : data.length = 32)
    (hfile : w.disk.manifest = some data) : ∃ t, readManifest env site w =
      Prog.ofOutcome (decodeManifest data) (w.onDisk w.disk t) := by
  have htake : data.take 32 = data := List.take_of_length_le (by omega)
  have hread := Prog.attempt_ok (readAll_ok data 32 h (w.onDisk w.disk (w.clock + 1))
    (by omega))
  refine ⟨w.clock + 1 + 1 + 1, ?_⟩
  rw [readManifest, Prog.bind_ok (check_ok h "open" w), Prog.get_bind, World.onDisk_disk, hfile]
  simp only
  rw [Prog.bind_ok hread, Prog.bind_ok (Prog.attempt_ok (check_ok h "close" _)), htake]
  rfl

/-- A manifest that is read has been decoded. -/
theorem returns_readManifest {data : List UInt8} (hlen : data.length = 32)
    (hfile : w.disk.manifest = some data) :
    returns (readManifest env site) (fun state _ => decodeManifest data = .ok state) w := by
  refine returns_bind (Q := fun _ w' => w'.disk = w.disk) (returns_check rfl) (fun _ w₁ h₁ => ?_)
  rw [returns, Prog.wp_bind, Prog.wp_get, h₁, hfile, ← returns]
  refine returns_bind (Q := fun r _ => ∀ a, r = .ok a → a.1 = data)
    (returns_attempt returns_readAll (fun a w₂ h₂ b hb => ?_)
      (fun _ _ b hb => absurd hb (by simp))) (fun r w₂ h₂ => ?_)
  · obtain ⟨_, hsplit, hsize⟩ := h₂
    rw [← Except.ok.inj hb]
    have hrest : a.2 = [] := by
      have := congrArg List.length hsplit
      rw [List.length_append] at this
      exact List.length_eq_zero_iff.mp (by omega)
    rw [hsplit, hrest, List.append_nil]
  · refine returns_bind (returns_trivial _ _) (fun closed w₃ _ => ?_)
    cases r with
    | error status => trivial
    | ok a =>
      cases closed with
      | error status => trivial
      | ok b =>
        refine returns_ofOutcome (fun state hstate => ?_)
        rw [← h₂ a rfl]
        exact hstate

end File

/-! ### Round trip and damage -/

/-- **`MANIFEST` round-trips, and damage to it is refused.**  What `WriteManifest` wrote is read as
its generation.  A file that differs from it within four consecutive bytes in front of the checksum,
or within the checksum, is never read as a manifest. -/
theorem manifest_roundtrip_damage {generation : ℕ} (hpos : 0 < generation)
    (hlt : generation < 2 ^ 64) {env : Env} {site : Site} {w w' : World}
    (hwrite : writeManifest env site generation w = .ok () w') :
    ∃ file, w'.disk.manifest = some file ∧ file.length = 32 ∧
    (∀ env site w, w.disk.manifest = some file →
      (∀ state w'', readManifest env site w = .ok state w'' → state = ⟨true, generation⟩) ∧
      (env.ReliableAt site → ∃ w'', readManifest env site w = .ok ⟨true, generation⟩ w'')) ∧
    ∀ damaged start, Burst file damaged start → (start + 4 ≤ 28 ∨ start = 28) →
      ∀ env site w, w.disk.manifest = some damaged →
        (∀ state w'', readManifest env site w ≠ .ok state w'') ∧
        (env.ReliableAt site → ∃ message w'',
          readManifest env site w = .error (.status (corruptManifest message)) w'') := by
  have hlen := length_encodeManifest generation
  have hdecode := decodeManifest_encode hpos hlt
  refine ⟨encodeManifest generation, Prog.wp_run_ok returns_writeManifest hwrite, hlen,
    fun env site w hfile => ⟨fun state w'' hread => ?_, fun hreliable => ?_⟩,
    fun damaged start hburst hat env site w hfile => ⟨fun state w'' hread => ?_, fun hreliable => ?_⟩⟩
  · have hstate := Prog.wp_run_ok (returns_readManifest hlen hfile) hread
    rw [hdecode] at hstate
    exact (Except.ok.inj hstate).symm
  · obtain ⟨t, hread⟩ := readManifest_ok hreliable hlen hfile
    rw [hdecode] at hread
    exact ⟨_, hread⟩
  · have hlen' := hburst.length_eq.symm.trans hlen
    obtain ⟨message, hrefused⟩ := decodeManifest_damaged hburst hat
    have hstate := Prog.wp_run_ok (returns_readManifest hlen' hfile) hread
    rw [hrefused] at hstate
    exact absurd hstate (by simp [err])
  · have hlen' := hburst.length_eq.symm.trans hlen
    obtain ⟨message, hrefused⟩ := decodeManifest_damaged hburst hat
    obtain ⟨t, hread⟩ := readManifest_ok hreliable hlen' hfile
    rw [hrefused] at hread
    exact ⟨message, _, hread⟩

/-- The first manifest of an empty directory. -/
theorem manifest_roundtrip_damage_first : ∃ w', writeManifest .reliable .checkpoint 1
    (World.boot .empty) = .ok () w' ∧ ∃ file, w'.disk.manifest = some file ∧ file.length = 32 ∧
    (∀ env site w, w.disk.manifest = some file →
      (∀ state w'', readManifest env site w = .ok state w'' → state = ⟨true, 1⟩) ∧
      (env.ReliableAt site → ∃ w'', readManifest env site w = .ok ⟨true, 1⟩ w'')) ∧
    ∀ damaged start, Burst file damaged start → (start + 4 ≤ 28 ∨ start = 28) →
      ∀ env site w, w.disk.manifest = some damaged →
        (∀ state w'', readManifest env site w ≠ .ok state w'') ∧
        (env.ReliableAt site → ∃ message w'',
          readManifest env site w = .error (.status (corruptManifest message)) w'') := by
  obtain ⟨t, hwrite⟩ := writeManifest_ok (reliableAt_reliable .checkpoint) (show 1 ≠ 0 by decide)
    (World.boot .empty)
  exact ⟨_, hwrite, manifest_roundtrip_damage (by decide) (by decide) hwrite⟩

end MinweightStore.Store
