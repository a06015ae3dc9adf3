import MinweightStore.Store.Files

/-!
# The snapshot file

A snapshot is a header of 32 bytes and a stream of records that carry their own lengths and
checksums.  The reader takes the records the header counts, one after the other.

* `readItem_encode`, `returns_readItem` — one record, forwards and backwards;
* `readItems_encode`, `returns_readItems` — the records the header counts, by induction on them;
* `snapshotImage` — the bytes of a snapshot with any reserved bytes, and with bytes behind it;
* `snapshot_roundtrip` — **a snapshot is read as it was written**;
* `readSnapshot_accepts` — **the files that are read as a list of items**.
-/

namespace MinweightStore.Store

open Minpatricia (ByteView kMaxKeySize)

/-! ### One record -/

/-- An item that a record holds and a reader takes. -/
structure Item.Fits (item : Item) : Prop where
  key_le : item.key.length ≤ kMaxKeySize
  value_lt : item.value.length < 2 ^ 32

@[simp] theorem length_itemHeader (item : Item) : (itemHeader item).length = 12 := rfl

section Item

variable {env : Env} {site : Site} {w : World} {item : Item} {rest : List UInt8}

/-- The lengths a record header holds. -/
theorem itemHeader_lengths (h : item.Fits) :
    (load32 (itemHeader item)).toNat = item.key.length ∧
      (load32 ((itemHeader item).drop 4)).toNat = item.value.length := by
  have hk := h.key_le
  have hv := h.value_lt
  have hmax : kMaxKeySize = 7281 := rfl
  have hfirst : itemHeader item = store32 (UInt32.ofNat item.key.length) ++
      (itemHeader item).drop 4 := rfl
  have hsecond : (itemHeader item).drop 4 = store32 (UInt32.ofNat item.value.length) ++
      (itemHeader item).drop 8 := rfl
  refine ⟨?_, ?_⟩
  · rw [hfirst, load32_store32_append, UInt32.toNat_ofNat']
    omega
  · rw [hsecond, load32_store32_append, UInt32.toNat_ofNat']
    omega

/-- **A record is read as it was encoded.** -/
theorem readItem_encode (h : env.ReliableAt site) (hitem : item.Fits) (rest : List UInt8)
    (w : World) : ∃ t,
    readItem env site (encodeItem item ++ rest) w = .ok (item, rest) (w.onDisk w.disk t) := by
  obtain ⟨hkey, hvalue⟩ := itemHeader_lengths hitem
  have hencoded : encodeItem item ++ rest = itemHeader item ++ (item.key ++ (item.value ++ rest)) := by
    simp only [encodeItem, List.append_assoc]
  have hheader := readAll_ok (itemHeader item ++ (item.key ++ (item.value ++ rest))) 12 h w (by simp)
  rw [List.take_left' (length_itemHeader item), List.drop_left' (length_itemHeader item)] at hheader
  obtain ⟨t₁, hk⟩ := readPart_ok (item.key ++ (item.value ++ rest)) item.key.length h
    (w.onDisk w.disk (w.clock + 1)) (by simp)
  rw [List.take_left, List.drop_left] at hk
  obtain ⟨t₂, hv⟩ := readPart_ok (item.value ++ rest) item.value.length h
    (w.onDisk w.disk t₁) (by simp)
  rw [List.take_left, List.drop_left] at hv
  have hcrc : (itemHeader item).drop 8 = store32 (itemCRC (itemLengths item) item) := rfl
  have hlengths : (itemHeader item).take 8 = itemLengths item := rfl
  refine ⟨t₂, ?_⟩
  rw [readItem, hencoded, Prog.bind_ok hheader]
  simp only [hkey, hvalue]
  rw [if_neg (Nat.not_lt.mpr hitem.key_le), Prog.bind_ok hk]
  simp only [World.onDisk_disk, World.onDisk_onDisk] at hv ⊢
  rw [Prog.bind_ok hv, hcrc, hlengths, load32_store32]
  simp only [ne_eq, not_true_eq_false, if_false]
  rfl

/-- **A record that is read** was encoded so. -/
theorem returns_readItem : returns (readItem env site rest)
    (fun r w' => w'.disk = w.disk ∧ rest = encodeItem r.1 ++ r.2 ∧ r.1.Fits) w := by
  refine returns_bind returns_readAll (fun r w₁ h₁ => ?_)
  obtain ⟨header, rest₁⟩ := r
  obtain ⟨hd₁, hrest, hheader⟩ := h₁
  simp only at hrest hheader ⊢
  split
  · trivial
  rename_i hkeySize
  refine returns_bind returns_readPart (fun r w₂ h₂ => ?_)
  obtain ⟨key, rest₂⟩ := r
  obtain ⟨hd₂, hrest₂, hkey⟩ := h₂
  refine returns_bind returns_readPart (fun r w₃ h₃ => ?_)
  obtain ⟨value, rest₃⟩ := r
  obtain ⟨hd₃, hrest₃, hvalue⟩ := h₃
  simp only at hrest₂ hrest₃ hkey hvalue ⊢
  split
  · trivial
  rename_i hcrc
  have hv32 := (load32 (header.drop 4)).toNat_lt
  refine ⟨hd₃.trans (hd₂.trans hd₁), ?_, ⟨by rw [hkey]; omega, by rw [hvalue]; exact hv32⟩⟩
  -- the header is the two lengths and the checksum, which has been compared
  have hfirst : header.take 4 = store32 (UInt32.ofNat key.length) := by
    rw [hkey, UInt32.ofNat_toNat, ← load32_take, store32_load32 (by simp [hheader])]
  have hsecond : (header.drop 4).take 4 = store32 (UInt32.ofNat value.length) := by
    rw [hvalue, UInt32.ofNat_toNat, ← load32_take, store32_load32 (by simp [hheader])]
  have hlengths : header.take 8 = itemLengths ⟨key, value⟩ := by
    rw [itemLengths, ← hfirst, ← hsecond, List.take_add (i := 4) (j := 4)]
  have hthird : header.drop 8 = store32 (itemCRC (itemLengths ⟨key, value⟩) ⟨key, value⟩) := by
    rw [← hlengths, not_not.mp hcrc, store32_load32 (by simp [hheader])]
  have hhead : itemHeader ⟨key, value⟩ = header := by
    rw [itemHeader, ← hthird, ← hlengths, List.take_append_drop]
  rw [encodeItem, hhead, hrest, hrest₂, hrest₃]
  simp only [List.append_assoc]

end Item

/-! ### All records -/

theorem appendSnapshotTmp_append (generation : ℕ) (content data : List UInt8) (d : Disk) :
    appendSnapshotTmp generation data (appendSnapshotTmp generation content d) =
      appendSnapshotTmp generation (content ++ data) d := by
  rw [appendSnapshotTmp, appendSnapshotTmp, appendSnapshotTmp, SortedMap.get?_insert, if_pos rfl,
    SortedMap.insert_insert, Option.getD_some, List.append_assoc]

theorem appendSnapshotTmp_nil (generation : ℕ) (content : List UInt8) (d : Disk) :
    appendSnapshotTmp generation [] (appendSnapshotTmp generation content d) =
      appendSnapshotTmp generation content d := by
  rw [appendSnapshotTmp_append, List.append_nil]

theorem returns_appendSnapshotTmp {env : Env} {site : Site} {w : World} {generation : ℕ}
    {content data : List UInt8} {d : Disk} (hw : w.disk = appendSnapshotTmp generation content d) :
    returns (writeAll env site data (appendSnapshotTmp generation))
      (fun _ w' => w'.disk = appendSnapshotTmp generation (content ++ data) d) w := by
  have happend : ∀ more, appendSnapshotTmp generation more w.disk =
      appendSnapshotTmp generation (content ++ more) d := fun more => by
    rw [hw, appendSnapshotTmp_append]
  refine returns_mono (returns_writeAll ?_) (fun _ w' h => h.trans (happend data))
  rw [happend, List.append_nil, hw]

section Items

variable {env : Env} {site : Site}

/-- The records of a list of items. -/
def encodeItems (items : List Item) : List UInt8 := (items.map encodeItem).flatten

theorem encodeItems_cons (item : Item) (items : List Item) :
    encodeItems (item :: items) = encodeItem item ++ encodeItems items := by
  rw [encodeItems, List.map_cons, List.flatten_cons]
  rfl

/-- **The records the header counts are read as they were encoded**, whatever comes behind. -/
theorem readItems_encode (h : env.ReliableAt site) (tail : List UInt8) (items : List Item)
    (hitems : ∀ item ∈ items, item.Fits) (w : World) : ∃ t,
    readItems env site items.length (encodeItems items ++ tail) w =
      .ok items (w.onDisk w.disk t) := by
  induction items generalizing w with
  | nil => exact ⟨w.clock, rfl⟩
  | cons item items ih =>
    obtain ⟨t₁, hone⟩ := readItem_encode h (hitems item List.mem_cons_self)
      (encodeItems items ++ tail) w
    obtain ⟨t₂, hrest⟩ := ih (fun x hx => hitems x (List.mem_cons_of_mem _ hx))
      (w.onDisk w.disk t₁)
    refine ⟨t₂, ?_⟩
    rw [encodeItems_cons, List.append_assoc, List.length_cons, readItems, Prog.bind_ok hone]
    simp only
    rw [Prog.bind_ok hrest]
    rfl

/-- **Items that are read** were encoded so, in this order. -/
theorem returns_readItems (count : ℕ) (rest : List UInt8) (w : World) :
    returns (readItems env site count rest) (fun items _ => items.length = count ∧
      (∀ item ∈ items, item.Fits) ∧ ∃ tail, rest = encodeItems items ++ tail) w := by
  induction count generalizing rest w with
  | zero => exact ⟨rfl, fun _ h => absurd h List.not_mem_nil, rest, rfl⟩
  | succ count ih =>
    refine returns_bind returns_readItem (fun r w₁ h₁ => ?_)
    obtain ⟨item, rest₁⟩ := r
    obtain ⟨_, hrest, hfits⟩ := h₁
    refine returns_bind (ih rest₁ w₁) (fun items w₂ h₂ => ?_)
    obtain ⟨hlen, hitems, tail, htail⟩ := h₂
    refine ⟨by rw [List.length_cons, hlen], List.forall_mem_cons.mpr ⟨hfits, hitems⟩, tail, ?_⟩
    simp only at hrest
    rw [encodeItems_cons, hrest, htail, List.append_assoc]

/-- The loop of `WriteSnapshot` appends the records to the temporary file. -/
theorem returns_writeItems (generation : ℕ) (items : List Item) (content : List UInt8) (d : Disk)
    (w : World) (hw : w.disk = appendSnapshotTmp generation content d) :
    returns (writeItems env site generation items)
      (fun _ w' => w'.disk = appendSnapshotTmp generation (content ++ encodeItems items) d) w := by
  induction items generalizing content w with
  | nil =>
    show w.disk = appendSnapshotTmp generation (content ++ []) d
    rw [List.append_nil, hw]
  | cons item items ih =>
    have hone : returns (writeItem env site generation item)
        (fun _ w' => w'.disk = appendSnapshotTmp generation (content ++ encodeItem item) d) w := by
      rw [writeItem]
      split
      · trivial
      refine returns_bind (returns_appendSnapshotTmp hw) (fun _ w₁ h₁ => ?_)
      refine returns_bind (returns_appendSnapshotTmp h₁) (fun _ w₂ h₂ => ?_)
      refine returns_mono (returns_appendSnapshotTmp h₂) (fun _ w₃ h₃ => ?_)
      rw [h₃, encodeItem]
      simp only [List.append_assoc]
    refine returns_bind hone (fun _ w₁ h₁ => ?_)
    rw [encodeItems_cons, ← List.append_assoc]
    exact ih _ w₁ h₁

end Items

/-! ### The file -/

/-- The bytes of a snapshot with any reserved bytes in its header, and with bytes behind it. -/
def snapshotImage (generation : ℕ) (items : List Item) (reserved tail : List UInt8) : List UInt8 :=
  kSnapshotMagic ++ store32 kSnapshotVersion ++ reserved ++
    store64 (UInt64.ofNat items.length) ++ store64 (UInt64.ofNat generation) ++
    encodeItems items ++ tail

theorem encodeSnapshot_eq (generation : ℕ) (items : List Item) :
    encodeSnapshot generation items = snapshotImage generation items (List.replicate 4 0) [] := by
  rw [snapshotImage, List.append_nil]
  rfl

section Header

variable {generation count : ℕ} (hlt : generation < 2 ^ 64)

include hlt

/-- **The headers that are accepted.** -/
theorem decodeSnapshotHeader_ok_iff {header : List UInt8} (hlen : header.length = 32) :
    decodeSnapshotHeader generation header = .ok count ↔ count < 2 ^ 30 ∧ ∃ reserved : List UInt8,
      reserved.length = 4 ∧ header = kSnapshotMagic ++ store32 kSnapshotVersion ++ reserved ++
        store64 (UInt64.ofNat count) ++ store64 (UInt64.ofNat generation) := by
  have hlimit : kRecordOffsetLimit = 2 ^ 30 := rfl
  constructor
  · intro h
    rw [decodeSnapshotHeader] at h
    split at h
    · exact absurd h (by simp [err])
    split at h
    · exact absurd h (by simp [err])
    simp only at h
    split at h
    · exact absurd h (by simp [err])
    split at h
    · exact absurd h (by simp [err])
    rename_i hmagic hversion hgeneration hcount
    obtain rfl := Except.ok.inj h
    have hversion' : (header.drop 8).take 4 = store32 kSnapshotVersion := by
      rw [← not_not.mp hversion, ← load32_take, store32_load32 (by simp [hlen])]
    have hcount' : (header.drop 16).take 8 = store64 (load64 (header.drop 16)) := by
      rw [← load64_take, store64_load64 (by simp [hlen])]
    have hgeneration' : header.drop 24 = store64 (UInt64.ofNat generation) := by
      rw [← not_not.mp hgeneration, UInt64.ofNat_toNat, store64_load64 (by simp [hlen])]
    refine ⟨by omega, (header.drop 12).take 4, by simp [hlen], ?_⟩
    rw [UInt64.ofNat_toNat, ← hversion', ← hcount', ← hgeneration', ← not_not.mp hmagic]
    have h24 : header.drop 16 = (header.drop 16).take 8 ++ header.drop 24 := by
      rw [← List.drop_drop (i := 8) (j := 16), List.take_append_drop]
    have h16 : header.drop 12 = (header.drop 12).take 4 ++ header.drop 16 := by
      rw [← List.drop_drop (i := 4) (j := 12), List.take_append_drop]
    have h12 : header.drop 8 = (header.drop 8).take 4 ++ header.drop 12 := by
      rw [← List.drop_drop (i := 4) (j := 8), List.take_append_drop]
    conv_lhs => rw [← List.take_append_drop 8 header, h12, h16, h24]
    simp only [List.append_assoc]
  · rintro ⟨hcount, reserved, hreserved, hheader⟩
    obtain ⟨a, b, c, d, rfl⟩ := List.length_eq_four.mp hreserved
    have hmagic : header.take 8 = kSnapshotMagic := by
      rw [hheader]
      rfl
    have hversion : header.drop 8 = store32 kSnapshotVersion ++ header.drop 12 := by
      rw [hheader]
      rfl
    have hnumber : header.drop 16 = store64 (UInt64.ofNat count) ++ header.drop 24 := by
      rw [hheader]
      rfl
    have hgeneration : header.drop 24 = store64 (UInt64.ofNat generation) := by
      rw [hheader]
      rfl
    have hcount' : (UInt64.ofNat count).toNat = count := by
      rw [UInt64.toNat_ofNat']
      omega
    have hgeneration' : (UInt64.ofNat generation).toNat = generation := by
      rw [UInt64.toNat_ofNat']
      omega
    rw [decodeSnapshotHeader, hmagic, hversion, load32_store32_append, hnumber,
      load64_store64_append, hgeneration, load64_store64, hcount', hgeneration',
      if_neg (not_not.mpr rfl), if_neg (not_not.mpr rfl)]
    simp only
    rw [if_neg (not_not.mpr rfl), if_neg (by omega)]

end Header

section File

variable {env : Env} {site : Site} {generation : ℕ} {items : List Item} {w : World}

/-- The writes of `WriteSnapshot`. -/
theorem returns_snapshotWrites {d : Disk} (hw : w.disk = appendSnapshotTmp generation [] d) :
    returns (do
        writeAll env site (snapshotHeader generation items.length) (appendSnapshotTmp generation)
        writeItems env site generation items)
      (fun _ w' => w'.disk = appendSnapshotTmp generation (encodeSnapshot generation items) d) w :=
  returns_bind (returns_appendSnapshotTmp hw)
    (fun _ w' h => returns_writeItems generation items _ d w' h)

/-- `WriteSnapshot` leaves the encoded items. -/
theorem returns_writeSnapshot : returns (writeSnapshot env site generation items)
    (fun _ w' => w'.disk.snapshots.get? generation = some (encodeSnapshot generation items)) w := by
  rw [writeSnapshot]
  split
  · trivial
  · refine returns_bind (Q := fun _ w' => w'.disk = appendSnapshotTmp generation []
      { w.disk with snapshotTmps := w.disk.snapshotTmps.insert generation [] })
      (returns_syscall ?_) (fun _ w₁ h₁ => ?_)
    · rw [appendSnapshotTmp, SortedMap.get?_insert, if_pos rfl, SortedMap.insert_insert]
      rfl
    · refine returns_mono (returns_publish (returns_snapshotWrites h₁)) (fun _ w₃ h₃ => ?_)
      rw [h₃, appendSnapshotTmp]
      simp only [SortedMap.get?_insert, if_true, Option.getD_some, List.nil_append]

theorem writePart_ok (h : env.ReliableAt site) {content : List UInt8} {d : Disk} (data : List UInt8)
    (hw : w.disk = appendSnapshotTmp generation content d) : ∃ t,
    writeAll env site data (appendSnapshotTmp generation) w =
      .ok () (w.onDisk (appendSnapshotTmp generation (content ++ data) d) t) := by
  obtain ⟨t, hrun⟩ := writeAll_ok h data (appendSnapshotTmp generation) w
    (by rw [hw, appendSnapshotTmp_nil])
  rw [hw, appendSnapshotTmp_append] at hrun
  exact ⟨t, hrun⟩

/-- The loop of `WriteSnapshot`, when all calls succeed. -/
theorem writeItems_ok (h : env.ReliableAt site) (items : List Item)
    (hitems : ∀ item ∈ items, item.Fits) (content : List UInt8) (d : Disk) (w : World)
    (hw : w.disk = appendSnapshotTmp generation content d) : ∃ t,
    writeItems env site generation items w =
      .ok () (w.onDisk (appendSnapshotTmp generation (content ++ encodeItems items) d) t) := by
  induction items generalizing content w with
  | nil =>
    refine ⟨w.clock, ?_⟩
    show EStateM.Result.ok () w = _
    rw [show encodeItems [] = [] from rfl, List.append_nil, ← hw]
    rfl
  | cons item items ih =>
    have hfits := hitems item List.mem_cons_self
    have hkey := hfits.key_le
    have hvalue := hfits.value_lt
    have hmax : kMaxKeySize = 7281 := rfl
    obtain ⟨t₁, h₁⟩ := writePart_ok h (itemHeader item) hw
    obtain ⟨t₂, h₂⟩ := writePart_ok
      (w := w.onDisk (appendSnapshotTmp generation (content ++ itemHeader item) d) t₁) h item.key rfl
    obtain ⟨t₃, h₃⟩ := writePart_ok
      (w := w.onDisk (appendSnapshotTmp generation (content ++ itemHeader item ++ item.key) d) t₂) h
      item.value rfl
    obtain ⟨t, hrest⟩ := ih (fun x hx => hitems x (List.mem_cons_of_mem _ hx))
      (content ++ itemHeader item ++ item.key ++ item.value)
      (w.onDisk (appendSnapshotTmp generation
        (content ++ itemHeader item ++ item.key ++ item.value) d) t₃) rfl
    have hbytes : content ++ itemHeader item ++ item.key ++ item.value ++ encodeItems items =
        content ++ encodeItems (item :: items) := by
      rw [encodeItems_cons, encodeItem]
      simp only [List.append_assoc]
    simp only [World.onDisk_onDisk] at h₂ h₃ hrest
    refine ⟨t, ?_⟩
    rw [writeItems, writeItem, if_neg (by omega), ← hbytes]
    simp only [bind_assoc]
    rw [Prog.bind_ok h₁, Prog.bind_ok h₂, Prog.bind_ok h₃]
    exact hrest

/-- The writes of `WriteSnapshot`, when all calls succeed. -/
theorem snapshotWrites_ok (h : env.ReliableAt site) (hitems : ∀ item ∈ items, item.Fits) {d : Disk}
    (hw : w.disk = appendSnapshotTmp generation [] d) : ∃ t, (do
        writeAll env site (snapshotHeader generation items.length) (appendSnapshotTmp generation)
        writeItems env site generation items) w =
      .ok () (w.onDisk (appendSnapshotTmp generation (encodeSnapshot generation items) d) t) := by
  obtain ⟨t₁, h₁⟩ := writePart_ok h (snapshotHeader generation items.length) hw
  obtain ⟨t, h₂⟩ := writeItems_ok h items hitems _ d (w.onDisk
    (appendSnapshotTmp generation ([] ++ snapshotHeader generation items.length) d) t₁) rfl
  exact ⟨t, (Prog.bind_ok h₁).trans h₂⟩

/-- **`WriteSnapshot`**, when all calls succeed. -/
theorem writeSnapshot_ok (h : env.ReliableAt site) (hg : generation ≠ 0)
    (hitems : ∀ item ∈ items, item.Fits) : ∃ t, writeSnapshot env site generation items w =
      .ok () (w.onDisk { w.disk with
        snapshots := w.disk.snapshots.insert generation (encodeSnapshot generation items)
        snapshotTmps := w.disk.snapshotTmps.erase generation } t) := by
  have hopen : ∀ t, (w.onDisk { w.disk with
      snapshotTmps := w.disk.snapshotTmps.insert generation [] } t).disk =
      appendSnapshotTmp generation [] { w.disk with
        snapshotTmps := w.disk.snapshotTmps.insert generation [] } := by
    intro t
    rw [appendSnapshotTmp, SortedMap.get?_insert, if_pos rfl, SortedMap.insert_insert]
    rfl
  obtain ⟨t₁, hwrites⟩ := snapshotWrites_ok h hitems (hopen (w.clock + 1))
  obtain ⟨t, hpublish⟩ := publish_ok h
    (fun d => { d with
      snapshots := d.snapshots.insert generation ((d.snapshotTmps.get? generation).getD [])
      snapshotTmps := d.snapshotTmps.erase generation })
    (fun d => { d with snapshotTmps := d.snapshotTmps.erase generation }) hwrites
  refine ⟨t, ?_⟩
  rw [writeSnapshot, if_neg hg, Prog.bind_ok (syscall_ok h "open" _ w)]
  refine hpublish.trans ?_
  rw [appendSnapshotTmp]
  simp only [SortedMap.get?_insert, if_true, Option.getD_some, List.nil_append,
    SortedMap.insert_insert, SortedMap.erase_insert, World.onDisk_onDisk]

/-- The parts of a snapshot image. -/
theorem snapshotImage_parts (generation : ℕ) (items : List Item) {reserved : List UInt8}
    (tail : List UInt8) (hreserved : reserved.length = 4) :
    ∃ header : List UInt8, header.length = 32 ∧
      header = kSnapshotMagic ++ store32 kSnapshotVersion ++ reserved ++
        store64 (UInt64.ofNat items.length) ++ store64 (UInt64.ofNat generation) ∧
      snapshotImage generation items reserved tail = header ++ (encodeItems items ++ tail) := by
  refine ⟨_, ?_, rfl, ?_⟩
  · simp [hreserved, kSnapshotMagic]
  · rw [snapshotImage, List.append_assoc _ (encodeItems items) tail]

variable (hg : 0 < generation) (hlt : generation < 2 ^ 64)

include hg hlt

/-- **A snapshot image is read** as its items. -/
theorem readSnapshot_image (h : env.ReliableAt site) (hcount : items.length < 2 ^ 30)
    (hitems : ∀ item ∈ items, item.Fits) {reserved tail : List UInt8}
    (hreserved : reserved.length = 4) (hfile : w.disk.snapshots.get? generation =
      some (snapshotImage generation items reserved tail)) :
    ∃ t, readSnapshot env site generation w = .ok items (w.onDisk w.disk t) := by
  obtain ⟨header, hlen, hheader, himage⟩ := snapshotImage_parts generation items tail
    hreserved
  have hdecode : decodeSnapshotHeader generation header = .ok items.length :=
    (decodeSnapshotHeader_ok_iff hlt hlen).mpr ⟨hcount, reserved, hreserved, hheader⟩
  have hread := readAll_ok (header ++ (encodeItems items ++ tail)) 32 h
    (w.onDisk w.disk (w.clock + 1)) (by simp [hlen])
  rw [List.take_left' hlen, List.drop_left' hlen] at hread
  obtain ⟨t, hitemsRun⟩ := readItems_encode h tail items hitems
    (w.onDisk w.disk (w.clock + 1 + 1))
  refine ⟨t + 1, ?_⟩
  rw [readSnapshot, if_neg (by omega), Prog.bind_ok (check_ok h "open" w), Prog.get_bind,
    World.onDisk_disk, hfile, himage]
  simp only
  rw [Prog.bind_ok hread]
  simp only
  rw [hdecode, Prog.ofOutcome, Prog.pure_bind_run]
  simp only [World.onDisk_disk, World.onDisk_onDisk, World.onDisk_clock] at hitemsRun ⊢
  rw [Prog.bind_ok hitemsRun, Prog.bind_ok (check_ok h "close" _)]
  rfl

/-- **A file that is read** is a snapshot image of the items. -/
theorem returns_readSnapshot {file : List UInt8}
    (hfile : w.disk.snapshots.get? generation = some file) :
    returns (readSnapshot env site generation) (fun items _ => items.length < 2 ^ 30 ∧
      (∀ item ∈ items, item.Fits) ∧ ∃ reserved tail : List UInt8, reserved.length = 4 ∧
        file = snapshotImage generation items reserved tail) w := by
  rw [readSnapshot, if_neg (by omega)]
  refine returns_bind (Q := fun _ w' => w'.disk = w.disk) (returns_check rfl) (fun _ w₁ h₁ => ?_)
  rw [returns, Prog.wp_bind, Prog.wp_get, h₁, hfile, ← returns]
  refine returns_bind returns_readAll (fun r w₂ h₂ => ?_)
  obtain ⟨header, rest⟩ := r
  obtain ⟨_, hsplit, hlen⟩ := h₂
  simp only at hsplit hlen ⊢
  refine returns_bind (Q := fun count _ => decodeSnapshotHeader generation header = .ok count)
    (returns_ofOutcome (fun _ h => h)) (fun count w₃ hcount => ?_)
  obtain ⟨hlt30, reserved, hreserved, hheader⟩ := (decodeSnapshotHeader_ok_iff hlt hlen).mp hcount
  refine returns_bind (returns_readItems count rest w₃) (fun items w₄ h₄ => ?_)
  obtain ⟨hlength, hitems, tail, htail⟩ := h₄
  refine returns_bind (returns_trivial _ _) (fun _ w₅ _ => ?_)
  refine ⟨hlength ▸ hlt30, hitems, reserved, tail, hreserved, ?_⟩
  rw [hsplit, hheader, htail, snapshotImage, hlength]
  simp only [List.append_assoc]

end File

/-! ### Round trip and acceptance -/

/-- A directory with one snapshot. -/
def snapshotDisk (generation : ℕ) (file : List UInt8) : Disk :=
  ⟨none, none, SortedMap.insert .empty generation file, .empty, .empty⟩

theorem get?_snapshotDisk (generation : ℕ) (file : List UInt8) :
    (World.boot (snapshotDisk generation file)).disk.snapshots.get? generation = some file :=
  (SortedMap.get?_insert .empty generation generation file).trans (if_pos rfl)

/-- **Snapshots round-trip.**  The file `WriteSnapshot` leaves for a list of items is read as this
list, in this order. -/
theorem snapshot_roundtrip {generation : ℕ} (hg : 0 < generation) (hlt : generation < 2 ^ 64)
    {items : List Item} (hcount : items.length < 2 ^ 30) (hitems : ∀ item ∈ items, item.Fits)
    {env : Env} {site : Site} {w w' : World}
    (hwrite : writeSnapshot env site generation items w = .ok () w') :
    ∃ file, w'.disk.snapshots.get? generation = some file ∧
      ∀ env site w, w.disk.snapshots.get? generation = some file →
        (∀ entries w'', readSnapshot env site generation w = .ok entries w'' → entries = items) ∧
        (env.ReliableAt site → ∃ w'', readSnapshot env site generation w = .ok items w'') := by
  refine ⟨encodeSnapshot generation items, Prog.wp_run_ok returns_writeSnapshot hwrite,
    fun env site w hfile => ⟨fun entries w'' hread => ?_, fun hreliable => ?_⟩⟩
  · obtain ⟨hlen, hfits, reserved, tail, hreserved, himage⟩ :=
      Prog.wp_run_ok (returns_readSnapshot hg hlt hfile) hread
    -- what this read found, a read of which all calls succeed finds too
    have hfile' := get?_snapshotDisk generation (encodeSnapshot generation items)
    obtain ⟨t, h₁⟩ := readSnapshot_image hg hlt (reliableAt_reliable .openStore)
      hlen hfits hreserved (hfile'.trans (congrArg some himage))
    obtain ⟨t', h₂⟩ := readSnapshot_image hg hlt (reliableAt_reliable .openStore)
      hcount hitems (List.length_replicate) (hfile'.trans (congrArg some (encodeSnapshot_eq generation items)))
    rw [h₁] at h₂
    exact (EStateM.Result.ok.inj h₂).1
  · rw [encodeSnapshot_eq] at hfile
    obtain ⟨t, hread⟩ := readSnapshot_image hg hlt hreliable hcount hitems rfl hfile
    exact ⟨_, hread⟩

/-- Two items, one of them empty. -/
theorem snapshot_roundtrip_two : ∃ w', writeSnapshot .reliable .checkpoint 1
    [⟨[], []⟩, ⟨[1], [7, 8]⟩] (World.boot .empty) = .ok () w' ∧
    ∃ file, w'.disk.snapshots.get? 1 = some file ∧
      ∀ env site w, w.disk.snapshots.get? 1 = some file →
        (∀ entries w'', readSnapshot env site 1 w = .ok entries w'' →
          entries = [⟨[], []⟩, ⟨[1], [7, 8]⟩]) ∧
        (env.ReliableAt site → ∃ w'', readSnapshot env site 1 w =
          .ok [⟨[], []⟩, ⟨[1], [7, 8]⟩] w'') := by
  have hitems : ∀ item ∈ ([⟨[], []⟩, ⟨[1], [7, 8]⟩] : List Item), item.Fits := by
    intro item hitem
    fin_cases hitem
    · exact ⟨by decide, by decide⟩
    · exact ⟨by decide, by decide⟩
  obtain ⟨t, hwrite⟩ := writeSnapshot_ok (w := World.boot .empty)
    (reliableAt_reliable .checkpoint) (show 1 ≠ 0 by decide) hitems
  exact ⟨_, hwrite, snapshot_roundtrip (by decide) (by decide) (by decide) hitems hwrite⟩

/-- **The files that are read as a list of items**: what `WriteSnapshot` writes for the list, up to
the four reserved bytes of the header and bytes behind the last counted record.  Everything else is
refused. -/
theorem readSnapshot_accepts {generation : ℕ} (hg : 0 < generation) (hlt : generation < 2 ^ 64)
    (file : List UInt8) (items : List Item) :
    (∀ env site w w', w.disk.snapshots.get? generation = some file →
      readSnapshot env site generation w = .ok items w' →
      items.length < 2 ^ 30 ∧ (∀ item ∈ items, item.Fits) ∧
        ∃ reserved tail : List UInt8, reserved.length = 4 ∧
          file = snapshotImage generation items reserved tail) ∧
    (items.length < 2 ^ 30 → (∀ item ∈ items, item.Fits) →
      (∃ reserved tail : List UInt8, reserved.length = 4 ∧
        file = snapshotImage generation items reserved tail) →
      ∀ env site w, env.ReliableAt site → w.disk.snapshots.get? generation = some file →
        ∃ w', readSnapshot env site generation w = .ok items w') := by
  refine ⟨fun env site w w' hfile hread => Prog.wp_run_ok (returns_readSnapshot hg hlt hfile) hread,
    fun hcount hitems himage env site w hreliable hfile => ?_⟩
  obtain ⟨reserved, tail, hreserved, rfl⟩ := himage
  obtain ⟨t, hread⟩ := readSnapshot_image hg hlt hreliable hcount hitems hreserved hfile
  exact ⟨_, hread⟩

/-- The snapshot of one item, with the count in its header lowered to zero. -/
def loweredSnapshot : List UInt8 := snapshotHeader 1 0 ++ encodeItem ⟨[1], [7]⟩

/-- A lowered count is not noticed: the file is read as a list of no items, whose snapshot it is
not. -/
theorem readSnapshot_loweredSnapshot :
    (∃ w', readSnapshot .reliable .openStore 1 (World.boot
      (snapshotDisk 1 loweredSnapshot)) = .ok [] w') ∧
      loweredSnapshot ≠ encodeSnapshot 1 [] := by
  refine ⟨?_, fun h => absurd (congrArg List.length h) (by decide)⟩
  have himage : loweredSnapshot =
      snapshotImage 1 [] (List.replicate 4 0) (encodeItem ⟨[1], [7]⟩) := rfl
  obtain ⟨t, hread⟩ := readSnapshot_image (show 0 < 1 by decide) (by decide)
    (reliableAt_reliable .openStore) (by decide) (fun _ h => absurd h List.not_mem_nil)
    List.length_replicate ((get?_snapshotDisk 1 loweredSnapshot).trans (congrArg some himage))
  exact ⟨_, hread⟩

/-- Two items. -/
def twoItems : List Item := [⟨[1], [7]⟩, ⟨[2], [8, 9]⟩]

/-- Their snapshot, with other reserved bytes and one byte behind it. -/
def tailSnapshot : List UInt8 := snapshotImage 1 twoItems [1, 2, 3, 4] [5]

theorem readSnapshot_accepts_tail : (∀ env site w w', w.disk.snapshots.get? 1 = some tailSnapshot →
      readSnapshot env site 1 w = .ok twoItems w' →
      twoItems.length < 2 ^ 30 ∧ (∀ item ∈ twoItems, item.Fits) ∧
        ∃ reserved tail : List UInt8, reserved.length = 4 ∧
          tailSnapshot = snapshotImage 1 twoItems reserved tail) ∧
    ∃ w', readSnapshot .reliable .openStore 1 (World.boot (snapshotDisk 1 tailSnapshot)) =
      .ok twoItems w' := by
  obtain ⟨honly, hall⟩ := readSnapshot_accepts (show 0 < 1 by decide) (by decide) tailSnapshot
    twoItems
  have hfits : ∀ item ∈ twoItems, item.Fits := by
    intro item hitem
    rcases List.mem_cons.mp hitem with rfl | hitem
    · exact ⟨by decide, by decide⟩
    · obtain rfl := List.mem_singleton.mp hitem
      exact ⟨by decide, by decide⟩
  refine ⟨honly, hall (by decide) hfits ⟨[1, 2, 3, 4], [5], rfl, rfl⟩ _ _ _ (fun _ => rfl)
    (get?_snapshotDisk 1 _)⟩

end MinweightStore.Store
