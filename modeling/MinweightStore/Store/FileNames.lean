import Mathlib.Data.Nat.Digits.Lemmas
import MinweightStore.Store.Opening

/-!
# File names

The names of segments, snapshots and generations in `store.cc`: an id in twenty decimal digits, and
the parsers that read it back.  A parser adds the digits up in 64 bits, and twenty digits reach
beyond them.

* `walSegmentName`, `parseWalSegmentName` and their twins — the names and the parsers;
* `Reads`, `reads_name` — what a parser accepts, and that it accepts every name of the store;
* `Overflows` — a name whose digits are beyond 64 bits;
* `names_faithful_iff` — **names and ids correspond, but for the names that overflow**.
-/

namespace MinweightStore.Store

/-- `d_name`. -/
abbrev FileName := List UInt8

/-! ### Names -/

def kWalSegmentSuffix : FileName := [46, 119, 97, 108]

def kSnapshotName : FileName := [83, 78, 65, 80, 83, 72, 79, 84]

/-- A decimal digit as a character. -/
def digitChar (d : ℕ) : UInt8 := UInt8.ofNat (48 + d)

/-- A number as an `std::ostream` prints it. -/
def decimalText (n : ℕ) : FileName :=
  if n = 0 then [48] else (Nat.digits 10 n).reverse.map digitChar

/-- `std::setw(20) << std::setfill('0')` in front of a text. -/
def setFill (text : FileName) : FileName := List.replicate (20 - text.length) 48 ++ text

/-- `WalSegmentName`. -/
def walSegmentName (fileNo : UInt64) : FileName :=
  setFill (decimalText fileNo.toNat) ++ kWalSegmentSuffix

/-- `FixedWidthID`. -/
def fixedWidthID (id : UInt64) : FileName := setFill (decimalText id.toNat)

/-- `WalGenerationName`. -/
def walGenerationName (generation : UInt64) : FileName := fixedWidthID generation

/-- `SnapshotFileName`. -/
def snapshotFileName (generation : UInt64) : FileName :=
  kSnapshotName ++ [46] ++ fixedWidthID generation

/-! ### Parsers -/

/-- The loop over the digits; `none` when a character is no digit. -/
def parseDigits : List UInt8 → UInt64 → Option UInt64
  | [], value => some value
  | c :: cs, value =>
    if c < 48 ∨ c > 57 then none else parseDigits cs (value * 10 + (c - 48).toUInt64)

/-- `ParseWalSegmentName`. -/
def parseWalSegmentName (name : FileName) : Result UInt64 :=
  if name.length ≠ 20 + kWalSegmentSuffix.length ∨
      name.drop (name.length - kWalSegmentSuffix.length) ≠ kWalSegmentSuffix then
    err ⟨.invalidArgument, "not a wal segment"⟩
  else match parseDigits (name.take 20) 0 with
    | none => err ⟨.invalidArgument, "not a wal segment"⟩
    | some value =>
      if value = 0 then err ⟨.invalidArgument, "invalid wal id"⟩ else .ok value

/-- The body of the loop of `ListWalGenerations`: the generation of an entry, if it is one. -/
def parseWalGeneration (name : FileName) : Option UInt64 :=
  if name = [46] ∨ name = [46, 46] ∨ name.length ≠ 20 then none
  else match parseDigits name 0 with
    | none => none
    | some value => if value > 0 then some value else none

/-- `ParseSnapshotFileName`. -/
def parseSnapshotFileName (name : FileName) : Result UInt64 :=
  if name.length ≠ (kSnapshotName ++ [46]).length + 20 ∨
      name.take (kSnapshotName ++ [46]).length ≠ kSnapshotName ++ [46] then
    err ⟨.invalidArgument, "not a snapshot file"⟩
  else match parseDigits (name.drop (kSnapshotName ++ [46]).length) 0 with
    | none => err ⟨.invalidArgument, "not a snapshot file"⟩
    | some value =>
      if value = 0 then err ⟨.invalidArgument, "invalid snapshot generation"⟩ else .ok value

/-! ### Digits -/

/-- A decimal digit. -/
def IsDigit (c : UInt8) : Prop := 48 ≤ c.toNat ∧ c.toNat ≤ 57

instance (c : UInt8) : Decidable (IsDigit c) := inferInstanceAs (Decidable (_ ∧ _))

/-- The number a list of digits denotes. -/
def decimalValue (cs : List UInt8) : ℕ := cs.foldl (fun v c => v * 10 + (c.toNat - 48)) 0

theorem decimalValue_append (cs : List UInt8) (c : UInt8) :
    decimalValue (cs ++ [c]) = decimalValue cs * 10 + (c.toNat - 48) := by
  rw [decimalValue, List.foldl_append]
  rfl

/-- The digits as numbers, the lowest one first. -/
def digitsOf (cs : List UInt8) : List ℕ := (cs.map fun c => c.toNat - 48).reverse

theorem decimalValue_eq (cs : List UInt8) : decimalValue cs = Nat.ofDigits 10 (digitsOf cs) := by
  induction cs using List.reverseRecOn with
  | nil => rfl
  | append_singleton cs c ih =>
    have hcons : digitsOf (cs ++ [c]) = (c.toNat - 48) :: digitsOf cs := by
      rw [digitsOf, List.map_append, List.reverse_append]
      rfl
    rw [decimalValue_append, hcons, Nat.ofDigits_cons, ih, Nat.mul_comm, Nat.add_comm]

theorem digit_lt {cs : List UInt8} (h : ∀ c ∈ cs, IsDigit c) : ∀ d ∈ digitsOf cs, d < 10 := by
  intro d hd
  obtain ⟨c, hc, rfl⟩ := List.mem_map.mp (List.mem_reverse.mp hd)
  obtain ⟨hlo, hhi⟩ := h c hc
  omega

theorem isDigit_digitChar {d : ℕ} (h : d < 10) :
    IsDigit (digitChar d) ∧ (digitChar d).toNat - 48 = d := by
  have hnat : (digitChar d).toNat = 48 + d := by
    rw [digitChar, UInt8.toNat_ofNat']
    omega
  exact ⟨⟨by omega, by omega⟩, by omega⟩

/-- One turn of the loop. -/
theorem addDigit_eq {c : UInt8} (h : IsDigit c) (v : ℕ) :
    UInt64.ofNat v * 10 + (c - 48).toUInt64 = UInt64.ofNat (v * 10 + (c.toNat - 48)) := by
  have hsub : (c - 48).toUInt64 = UInt64.ofNat (c.toNat - 48) := by
    have hlo : (48 : UInt8) ≤ c := UInt8.le_iff_toNat_le.mpr h.1
    apply UInt64.toNat_inj.mp
    rw [UInt8.toNat_toUInt64, UInt8.toNat_sub_of_le _ _ hlo, UInt64.toNat_ofNat']
    have := c.toNat_lt
    show c.toNat - 48 = (c.toNat - 48) % 2 ^ 64
    omega
  rw [hsub, UInt64.ofNat_add, UInt64.ofNat_mul]
  rfl

/-- **The loop adds the digits up in 64 bits**, and accepts nothing but digits. -/
theorem parseDigits_from (cs : List UInt8) (v : ℕ) (id : UInt64) :
    parseDigits cs (UInt64.ofNat v) = some id ↔ (∀ c ∈ cs, IsDigit c) ∧
      UInt64.ofNat (cs.foldl (fun v c => v * 10 + (c.toNat - 48)) v) = id := by
  induction cs generalizing v with
  | nil =>
    rw [parseDigits, Option.some_inj, List.foldl_nil]
    exact (and_iff_right fun c hc => absurd hc List.not_mem_nil).symm
  | cons c cs ih =>
    have hrange : (c < 48 ∨ c > 57) ↔ ¬ IsDigit c := by
      have h48 : c < 48 ↔ c.toNat < 48 := UInt8.lt_iff_toNat_lt
      have h57 : c > 57 ↔ 57 < c.toNat := UInt8.lt_iff_toNat_lt
      rw [h48, h57, IsDigit]
      omega
    rw [parseDigits, List.forall_mem_cons]
    by_cases hc : IsDigit c
    · rw [if_neg (fun h => hrange.mp h hc), addDigit_eq hc, ih, List.foldl_cons, and_iff_right hc]
    · rw [if_pos (hrange.mpr hc)]
      exact ⟨fun h => absurd h (by simp), fun h => absurd h.1.1 hc⟩

/-- The loop of a parser. -/
theorem parseDigits_some {cs : List UInt8} {id : UInt64} :
    parseDigits cs 0 = some id ↔ (∀ c ∈ cs, IsDigit c) ∧ UInt64.ofNat (decimalValue cs) = id := by
  have hzero : (0 : UInt64) = UInt64.ofNat 0 := rfl
  rw [hzero, parseDigits_from, decimalValue]

/-! ### Fixed width -/

/-- Twenty digits are enough. -/
theorem toNat_lt_pow (id : UInt64) : id.toNat < 10 ^ 20 :=
  lt_trans id.toNat_lt (by norm_num)

theorem decimalText_length (n : ℕ) : n ≠ 0 → (decimalText n).length = (Nat.digits 10 n).length := by
  intro hn
  rw [decimalText, if_neg hn, List.length_map, List.length_reverse]

/-- **An id is printed as its digits**, with zeros in front. -/
theorem fixedWidthID_eq (id : UInt64) :
    fixedWidthID id = (Nat.digitsAppend 10 20 id.toNat).reverse.map digitChar := by
  by_cases hn : id.toNat = 0
  · rw [fixedWidthID, hn]
    simp [decimalText, setFill, Nat.digitsAppend, digitChar, List.replicate]
  · rw [fixedWidthID, setFill, decimalText_length _ hn, decimalText, if_neg hn, Nat.digitsAppend,
      List.reverse_append, List.map_append, List.reverse_replicate, List.map_replicate]
    rfl

/-- The digits of an id: twenty of them, which denote it. -/
theorem fixedWidthID_digits (id : UInt64) : (fixedWidthID id).length = 20 ∧
    (∀ c ∈ fixedWidthID id, IsDigit c) ∧ decimalValue (fixedWidthID id) = id.toNat := by
  have hmem : ∀ d ∈ Nat.digitsAppend 10 20 id.toNat, d < 10 :=
    fun d hd => Nat.lt_of_mem_digitsAppend (by norm_num) 20 d hd
  have hdigits : digitsOf (fixedWidthID id) = Nat.digitsAppend 10 20 id.toNat := by
    rw [fixedWidthID_eq, digitsOf, List.map_map, ← List.map_reverse, List.reverse_reverse]
    refine (List.map_congr_left (fun d hd => ?_)).trans (List.map_id _)
    exact (isDigit_digitChar (hmem d hd)).2
  refine ⟨?_, fun c hc => ?_, ?_⟩
  · rw [fixedWidthID_eq, List.length_map, List.length_reverse,
      Nat.length_digitsAppend (by norm_num) 20 (toNat_lt_pow id)]
  · rw [fixedWidthID_eq] at hc
    obtain ⟨d, hd, rfl⟩ := List.mem_map.mp hc
    exact (isDigit_digitChar (hmem d (List.mem_reverse.mp hd))).1
  · rw [decimalValue_eq, hdigits, Nat.digitsAppend, Nat.ofDigits_append_replicate_zero,
      Nat.ofDigits_digits]

/-- **Digit strings of one length** that denote the same number are the same. -/
theorem eq_of_decimalValue {cs cs' : List UInt8} (hlen : cs.length = cs'.length)
    (h : ∀ c ∈ cs, IsDigit c) (h' : ∀ c ∈ cs', IsDigit c) (hv : decimalValue cs = decimalValue cs') :
    cs = cs' := by
  rw [decimalValue_eq, decimalValue_eq] at hv
  have hdigits : digitsOf cs = digitsOf cs' := by
    refine Nat.ofDigits_inj_of_len_eq (by norm_num) ?_ (digit_lt h) (digit_lt h') hv
    rw [digitsOf, digitsOf, List.length_reverse, List.length_reverse, List.length_map,
      List.length_map, hlen]
  have hmap := List.reverse_injective hdigits
  refine List.ext_getElem hlen (fun i hi hi' => ?_)
  have hget := congrArg (fun l : List ℕ => l[i]?) hmap
  simp only [List.getElem?_map, List.getElem?_eq_getElem hi, List.getElem?_eq_getElem hi',
    Option.map_some, Option.some_inj] at hget
  obtain ⟨hlo, _⟩ := h _ (List.getElem_mem hi)
  obtain ⟨hlo', _⟩ := h' _ (List.getElem_mem hi')
  apply UInt8.toNat_inj.mp
  omega

/-! ### What a parser accepts -/

/-- **A name with twenty digits in the middle**, from which a parser reads an id. -/
def Reads (pre suf name : FileName) (id : UInt64) : Prop :=
  ∃ digits, digits.length = 20 ∧ name = pre ++ digits ++ suf ∧ parseDigits digits 0 = some id ∧ id ≠ 0

/-- The digits of a name. -/
def digitsIn (pre name : FileName) : FileName := (name.drop pre.length).take 20

/-- **A name whose digits are beyond 64 bits**, and not a multiple of `2 ^ 64`, which is refused as
zero. -/
def Overflows (pre suf name : FileName) : Prop :=
  name = pre ++ digitsIn pre name ++ suf ∧ (digitsIn pre name).length = 20 ∧
    (∀ c ∈ digitsIn pre name, IsDigit c) ∧ 2 ^ 64 ≤ decimalValue (digitsIn pre name) ∧
    decimalValue (digitsIn pre name) % 2 ^ 64 ≠ 0

instance (pre suf name : FileName) : Decidable (Overflows pre suf name) :=
  inferInstanceAs (Decidable (_ ∧ _))

section Reads

variable {pre suf name digits : FileName} {id : UInt64}

theorem digitsIn_eq (h : digits.length = 20) : digitsIn pre (pre ++ digits ++ suf) = digits := by
  rw [digitsIn, List.append_assoc, List.drop_left, ← h, List.take_left]

/-- **Every name of the store is read back.** -/
theorem reads_name (pre suf : FileName) (h : id ≠ 0) :
    Reads pre suf (pre ++ fixedWidthID id ++ suf) id := by
  obtain ⟨hlen, hdigits, hvalue⟩ := fixedWidthID_digits id
  refine ⟨fixedWidthID id, hlen, rfl, parseDigits_some.mpr ⟨hdigits, ?_⟩, h⟩
  rw [hvalue, UInt64.ofNat_toNat]

/-- An id that is read is the value of the digits in 64 bits. -/
theorem Reads.value (h : Reads pre suf name id) : ∃ digits, digits.length = 20 ∧
    name = pre ++ digits ++ suf ∧ (∀ c ∈ digits, IsDigit c) ∧
    id.toNat = decimalValue digits % 2 ^ 64 ∧ id.toNat ≠ 0 := by
  obtain ⟨digits, hlen, hname, hparse, hne⟩ := h
  obtain ⟨hdigits, rfl⟩ := parseDigits_some.mp hparse
  refine ⟨digits, hlen, hname, hdigits, UInt64.toNat_ofNat', fun h0 => hne ?_⟩
  exact UInt64.toNat_inj.mp h0

/-- **A name is the name of its id**, if and only if its digits do not overflow. -/
theorem eq_name_iff (pre suf name : FileName) :
    (∀ id, Reads pre suf name id → name = pre ++ fixedWidthID id ++ suf) ↔
      ¬ Overflows pre suf name := by
  constructor
  · rintro h ⟨hname, hlen, hdigits, hbig, hrest⟩
    have hid : UInt64.ofNat (decimalValue (digitsIn pre name)) ≠ 0 := fun h0 => by
      apply hrest
      have := congrArg UInt64.toNat h0
      rwa [UInt64.toNat_ofNat'] at this
    have hread : Reads pre suf name (UInt64.ofNat (decimalValue (digitsIn pre name))) :=
      ⟨_, hlen, hname, parseDigits_some.mpr ⟨hdigits, rfl⟩, hid⟩
    have hsame := h _ hread
    rw [hname] at hsame
    have hcancel := List.append_cancel_left (List.append_cancel_right hsame)
    rw [← hname] at hcancel
    have hvalue := (fixedWidthID_digits (UInt64.ofNat (decimalValue (digitsIn pre name)))).2.2
    have hlt := (UInt64.ofNat (decimalValue (digitsIn pre name))).toNat_lt
    rw [← hcancel] at hvalue
    omega
  · intro h id hread
    obtain ⟨digits, hlen, hname, hdigits, hvalue, hne⟩ := hread.value
    have hin : digitsIn pre name = digits := by rw [hname, digitsIn_eq hlen]
    have hsmall : decimalValue digits < 2 ^ 64 := by
      apply Nat.not_le.mp
      intro hbig
      apply h
      rw [Overflows, hin]
      exact ⟨hname, hlen, hdigits, hbig, by omega⟩
    obtain ⟨hlen', hdigits', hvalue'⟩ := fixedWidthID_digits id
    have hsame : digits = fixedWidthID id :=
      eq_of_decimalValue (hlen.trans hlen'.symm) hdigits hdigits' (by omega)
    rw [hname, hsame]

/-- What a parser makes of the digits. -/
theorem nonzero_ok_iff {o : Option UInt64} {status status' : Status} :
    (match o with
      | none => err status
      | some value => if value = 0 then err status' else .ok value) = (.ok id : Result UInt64) ↔
      o = some id ∧ id ≠ 0 := by
  cases o with
  | none => exact ⟨fun h => absurd h (by simp [err]), fun h => absurd h.1 (by simp)⟩
  | some value =>
    simp only
    split
    · rename_i h0
      refine ⟨fun h => absurd h (by simp [err]), fun h => ?_⟩
      rw [← Option.some.inj h.1] at h
      exact absurd h0 h.2
    · rename_i h0
      constructor
      · intro h
        rw [← Except.ok.inj h]
        exact ⟨rfl, h0⟩
      · intro h
        rw [Option.some.inj h.1]

theorem parseWalSegmentName_ok_iff :
    parseWalSegmentName name = .ok id ↔ Reads [] kWalSegmentSuffix name id := by
  have hsuf : kWalSegmentSuffix.length = 4 := rfl
  rw [parseWalSegmentName]
  constructor
  · intro h
    split at h
    · exact absurd h (by simp [err])
    · rename_i hform
      rw [not_or, not_not, not_not] at hform
      obtain ⟨hlen, hdrop⟩ := hform
      obtain ⟨hparse, hne⟩ := nonzero_ok_iff.mp h
      refine ⟨name.take 20, by rw [List.length_take]; omega, ?_, hparse, hne⟩
      rw [hlen, Nat.add_sub_cancel] at hdrop
      rw [List.nil_append, ← hdrop, List.take_append_drop]
  · rintro ⟨digits, hlen, rfl, hparse, hne⟩
    have hlength : ([] ++ digits ++ kWalSegmentSuffix).length = 20 + kWalSegmentSuffix.length := by
      rw [List.nil_append, List.length_append, hlen]
    rw [if_neg]
    · rw [List.nil_append, ← hlen, List.take_left]
      exact nonzero_ok_iff.mpr ⟨hparse, hne⟩
    · rw [not_or, not_not, not_not, hlength, Nat.add_sub_cancel, List.nil_append, ← hlen]
      exact ⟨rfl, List.drop_left⟩

theorem parseSnapshotFileName_ok_iff :
    parseSnapshotFileName name = .ok id ↔ Reads (kSnapshotName ++ [46]) [] name id := by
  have hpre : (kSnapshotName ++ [46]).length = 9 := rfl
  rw [parseSnapshotFileName]
  constructor
  · intro h
    split at h
    · exact absurd h (by simp [err])
    · rename_i hform
      rw [not_or, not_not, not_not] at hform
      obtain ⟨hlen, htake⟩ := hform
      obtain ⟨hparse, hne⟩ := nonzero_ok_iff.mp h
      refine ⟨name.drop (kSnapshotName ++ [46]).length, by rw [List.length_drop]; omega, ?_, hparse,
        hne⟩
      have hsplit := List.take_append_drop (kSnapshotName ++ [46]).length name
      rw [htake] at hsplit
      rw [List.append_nil]
      exact hsplit.symm
  · rintro ⟨digits, hlen, rfl, hparse, hne⟩
    rw [if_neg]
    · rw [List.append_nil, List.drop_left]
      exact nonzero_ok_iff.mpr ⟨hparse, hne⟩
    · rw [not_or, not_not, not_not, List.append_nil, List.length_append, hlen]
      exact ⟨rfl, List.take_left⟩

theorem parseWalGeneration_some_iff :
    parseWalGeneration name = some id ↔ Reads [] [] name id := by
  have hpos : ∀ v : UInt64, v > 0 ↔ v ≠ 0 := by
    intro v
    rw [gt_iff_lt, UInt64.lt_iff_toNat_lt, ne_eq, ← UInt64.toNat_inj]
    exact Nat.pos_iff_ne_zero
  rw [parseWalGeneration]
  constructor
  · intro h
    split at h
    · exact absurd h (by simp)
    · rename_i hform
      rw [not_or, not_or, not_not] at hform
      refine ⟨name, hform.2.2, by rw [List.nil_append, List.append_nil], ?_⟩
      cases hparse : parseDigits name 0 with
      | none => rw [hparse] at h; exact absurd h (by simp)
      | some value =>
        rw [hparse] at h
        simp only at h
        split at h
        · rename_i hv
          rw [← Option.some.inj h]
          exact ⟨rfl, (hpos value).mp hv⟩
        · exact absurd h (by simp)
  · rintro ⟨digits, hlen, rfl, hparse, hne⟩
    rw [List.nil_append, List.append_nil]
    have hdot : ∀ l : FileName, l.length ≠ 20 → digits ≠ l := by
      rintro l hl rfl
      exact hl hlen
    rw [if_neg, hparse]
    · simp only
      rw [if_pos ((hpos id).mpr hne)]
    · rw [not_or, not_or, not_not]
      exact ⟨hdot _ (by decide), hdot _ (by decide), hlen⟩

end Reads

/-! ### Names and ids -/

/-- **An id and a name correspond**, but for the names that overflow: the id comes back from its name,
and an id that is read from the name belongs to it if and only if the name does not overflow. -/
structure NamesFaithful (nameOf : UInt64 → FileName) (parses : FileName → UInt64 → Prop)
    (overflows : FileName → Prop) (id : UInt64) (name : FileName) : Prop where
  parses_name : id ≠ 0 → parses (nameOf id) id
  name_eq_iff : (∀ read, parses name read → name = nameOf read) ↔ ¬ overflows name

theorem namesFaithful_reads (pre suf : FileName) (id : UInt64) (name : FileName) : NamesFaithful
    (fun id => pre ++ fixedWidthID id ++ suf) (Reads pre suf) (Overflows pre suf) id name :=
  ⟨fun h => reads_name pre suf h, eq_name_iff pre suf name⟩

/-- **File names and ids correspond one to one, but for the names that overflow.** -/
theorem names_faithful_iff (id : UInt64) (name : FileName) :
    NamesFaithful walSegmentName (fun name id => parseWalSegmentName name = .ok id)
        (Overflows [] kWalSegmentSuffix) id name ∧
      NamesFaithful snapshotFileName (fun name id => parseSnapshotFileName name = .ok id)
        (Overflows (kSnapshotName ++ [46]) []) id name ∧
      NamesFaithful walGenerationName (fun name id => parseWalGeneration name = some id)
        (Overflows [] []) id name := by
  have hwal : (fun name id => parseWalSegmentName name = .ok id) = Reads [] kWalSegmentSuffix := by
    funext name id
    exact propext parseWalSegmentName_ok_iff
  have hsnapshot : (fun name id => parseSnapshotFileName name = .ok id) =
      Reads (kSnapshotName ++ [46]) [] := by
    funext name id
    exact propext parseSnapshotFileName_ok_iff
  have hgeneration : (fun name id => parseWalGeneration name = some id) = Reads [] [] := by
    funext name id
    exact propext parseWalGeneration_some_iff
  have hsnapshotName : snapshotFileName = fun id => kSnapshotName ++ [46] ++ fixedWidthID id ++ [] := by
    funext id
    rw [List.append_nil, snapshotFileName]
  have hgenerationName : walGenerationName = fun id => [] ++ fixedWidthID id ++ [] := by
    funext id
    rw [List.append_nil, List.nil_append, walGenerationName]
  rw [hwal, hsnapshot, hgeneration, hsnapshotName, hgenerationName]
  exact ⟨namesFaithful_reads [] kWalSegmentSuffix id name,
    namesFaithful_reads (kSnapshotName ++ [46]) [] id name, namesFaithful_reads [] [] id name⟩

/-- `18446744073709551617.wal`. -/
def overflowingName : FileName :=
  [49, 56, 52, 52, 54, 55, 52, 52, 48, 55, 51, 55, 48, 57, 53, 53, 49, 54, 49, 55] ++ kWalSegmentSuffix

/-- Two names with one id. -/
theorem overflowingName_parses : parseWalSegmentName overflowingName = .ok 1 ∧
    parseWalSegmentName (walSegmentName 1) = .ok 1 ∧ overflowingName ≠ walSegmentName 1 := by
  have hone : walSegmentName 1 = [48, 48, 48, 48, 48, 48, 48, 48, 48, 48, 48, 48, 48, 48, 48, 48, 48,
      48, 48, 49] ++ kWalSegmentSuffix := by
    simp [walSegmentName, decimalText, setFill, digitChar]
  rw [hone]
  decide

/-! ### Listings -/

/-- The ids of the names that `readdir` gives, sorted. -/
def listIDs (parse : FileName → Option UInt64) (names : List FileName) : List UInt64 :=
  (names.filterMap parse).mergeSort fun a b => a ≤ b

/-- `ListWalSegmentIDs`. -/
def walSegmentIDs : List FileName → List UInt64 :=
  listIDs fun name => (parseWalSegmentName name).toOption

/-- `ListWalGenerations`. -/
def walGenerations : List FileName → List UInt64 := listIDs parseWalGeneration

/-- `ListSnapshotGenerations`. -/
def snapshotGenerations : List FileName → List UInt64 :=
  listIDs fun name => (parseSnapshotFileName name).toOption

section Listings

variable {pre suf : FileName} {parse : FileName → Option UInt64} {names others : List FileName}

/-- The name of an id is read as that id, and the name of zero is refused. -/
theorem reads_name_iff (pre suf : FileName) (i id : UInt64) :
    Reads pre suf (pre ++ fixedWidthID i ++ suf) id ↔ id = i ∧ i ≠ 0 := by
  constructor
  · intro h
    obtain ⟨digits, hlen, hname, _, hvalue, hne⟩ := h.value
    obtain ⟨hlen', _, hvalue'⟩ := fixedWidthID_digits i
    have hsame : digits = fixedWidthID i := by
      have hin : digitsIn pre (pre ++ fixedWidthID i ++ suf) = digits := by
        rw [hname, digitsIn_eq hlen]
      rw [← hin, digitsIn_eq hlen']
    have hi : id = i := by
      apply UInt64.toNat_inj.mp
      rw [hvalue, hsame, hvalue', Nat.mod_eq_of_lt i.toNat_lt]
    refine ⟨hi, fun h0 => hne ?_⟩
    rw [hi, h0]
    rfl
  · rintro ⟨rfl, hne⟩
    exact reads_name pre suf hne

/-- The ids of a list of names, by induction on it. -/
theorem filterMap_names (hparse : ∀ name id, parse name = some id ↔ Reads pre suf name id)
    (ids : List ℕ) (hids : ∀ i ∈ ids, i < 2 ^ 64) :
    (ids.map fun i => pre ++ fixedWidthID (UInt64.ofNat i) ++ suf).filterMap parse =
      (ids.filter (0 < ·)).map UInt64.ofNat := by
  induction ids with
  | nil => rfl
  | cons i ids ih =>
    obtain ⟨hi, hids'⟩ := List.forall_mem_cons.mp hids
    have hnat : (UInt64.ofNat i).toNat = i := by
      rw [UInt64.toNat_ofNat', Nat.mod_eq_of_lt hi]
    rw [List.map_cons]
    by_cases h0 : i = 0
    · subst h0
      have hnone : parse (pre ++ fixedWidthID (UInt64.ofNat 0) ++ suf) = none := by
        apply Option.eq_none_iff_forall_ne_some.mpr
        intro id hid
        exact ((reads_name_iff pre suf _ id).mp ((hparse _ id).mp hid)).2 rfl
      rw [List.filterMap_cons_none hnone, ih hids', List.filter_cons_of_neg (by decide)]
    · have hne : UInt64.ofNat i ≠ 0 := fun h => by
        have := congrArg UInt64.toNat h
        rw [hnat] at this
        exact h0 this
      have hsome := (hparse _ _).mpr ((reads_name_iff pre suf _ _).mpr ⟨rfl, hne⟩)
      have hkeep : (i :: ids).filter (0 < ·) = i :: ids.filter (0 < ·) :=
        List.filter_cons_of_pos (by simpa using Nat.pos_of_ne_zero h0)
      rw [List.filterMap_cons_some hsome, ih hids', hkeep, List.map_cons]

/-- **A listing gives the ids of a directory**, in whatever order its names come and whatever else is
there that no parser accepts. -/
theorem listIDs_of_map {V : Type} (hparse : ∀ name id, parse name = some id ↔ Reads pre suf name id)
    (files : SortedMap ℕ V) (hids : ∀ e ∈ files.entries, e.1 < 2 ^ 64)
    (hnames : names.Perm (others ++
      (files.entries.map Prod.fst).map fun i => pre ++ fixedWidthID (UInt64.ofNat i) ++ suf))
    (hothers : ∀ name ∈ others, parse name = none) :
    (listIDs parse names).map UInt64.toNat = (files.entries.map Prod.fst).filter (0 < ·) := by
  have hlt : ∀ i ∈ files.entries.map Prod.fst, i < 2 ^ 64 := by
    intro i hi
    obtain ⟨e, he, rfl⟩ := List.mem_map.mp hi
    exact hids e he
  have hfound := hnames.filterMap parse
  rw [List.filterMap_append, List.filterMap_eq_nil_iff.mpr hothers, List.nil_append,
    filterMap_names hparse _ hlt] at hfound
  have hsorted : ((files.entries.map Prod.fst).filter (0 < ·)).Pairwise (· < ·) :=
    (List.pairwise_map.mpr files.sorted).filter _
  have hback : ∀ i ∈ (files.entries.map Prod.fst).filter (0 < ·), (UInt64.ofNat i).toNat = i := by
    intro i hi
    rw [UInt64.toNat_ofNat', Nat.mod_eq_of_lt (hlt i (List.mem_filter.mp hi).1)]
  have hmerge : listIDs parse names =
      ((files.entries.map Prod.fst).filter (0 < ·)).map UInt64.ofNat := by
    have hleft : (listIDs parse names).Pairwise (· ≤ ·) := by
      refine (List.pairwise_mergeSort (fun a b c => ?_) (fun a b => ?_) _).imp (fun h => ?_)
      · simpa using UInt64.le_trans
      · simpa using UInt64.le_total a b
      · simpa using h
    have hright : (((files.entries.map Prod.fst).filter (0 < ·)).map UInt64.ofNat).Pairwise
        (· ≤ ·) := by
      refine List.pairwise_map.mpr (hsorted.imp_of_mem (fun {a b} ha hb h => ?_))
      rw [UInt64.le_iff_toNat_le, hback a ha, hback b hb]
      exact Nat.le_of_lt h
    exact ((List.mergeSort_perm _ _).trans hfound).eq_of_pairwise
      (fun a b _ _ => UInt64.le_antisymm) hleft hright
  rw [hmerge, List.map_map]
  exact (List.map_congr_left hback).trans (List.map_id _)

theorem toOption_eq_some {α : Type} {o : Result α} {a : α} : o.toOption = some a ↔ o = .ok a := by
  cases o with
  | ok b =>
    change some b = some a ↔ Except.ok b = Except.ok a
    rw [Option.some.injEq, Except.ok.injEq]
  | error e =>
    constructor
    · intro h
      exact absurd h (by simp [Except.toOption])
    · intro h
      exact absurd h (by simp)

variable {env : Env} {w : World} {generation : ℕ}

/-- The segments of a generation are those that its directory lists. -/
theorem listWalSegmentIDs_names {site : Site} (hsite : env.ReliableAt site)
    (hids : ∀ e ∈ (w.disk.dir generation).entries, e.1 < 2 ^ 64)
    (hnames : names.Perm (others ++ ((w.disk.dir generation).entries.map Prod.fst).map fun i =>
      [] ++ fixedWidthID (UInt64.ofNat i) ++ kWalSegmentSuffix))
    (hothers : ∀ name ∈ others, (parseWalSegmentName name).toOption = none) :
    listWalSegmentIDs env site generation w =
      .ok ((walSegmentIDs names).map UInt64.toNat) (w.onDisk w.disk (w.clock + 3)) := by
  have hlist := listIDs_of_map (fun _ _ => toOption_eq_some.trans parseWalSegmentName_ok_iff)
    (w.disk.dir generation) hids hnames hothers
  rw [walSegmentIDs, hlist, listWalSegmentIDs_ok hsite]

theorem listGenerations_names (hsite : env.ReliableAt .cleanup) {V : Type} (files : SortedMap ℕ V)
    (hparse : ∀ name id, parse name = some id ↔ Reads pre suf name id)
    (hids : ∀ e ∈ files.entries, e.1 < 2 ^ 64)
    (hnames : names.Perm (others ++ (files.entries.map Prod.fst).map fun i =>
      pre ++ fixedWidthID (UInt64.ofNat i) ++ suf))
    (hothers : ∀ name ∈ others, parse name = none) (generations : Disk → List ℕ)
    (hfiles : generations w.disk = files.entries.map Prod.fst) :
    listGenerations env generations w =
      .ok ((listIDs parse names).map UInt64.toNat) (w.onDisk w.disk (w.clock + 3)) := by
  rw [listIDs_of_map hparse files hids hnames hothers, ← hfiles, listGenerations,
    Prog.bind_ok (check_ok hsite _ _), Prog.bind_ok (check_ok hsite _ _),
    Prog.bind_ok (check_ok hsite _ _)]
  rfl

/-- The generations of the store are those that `wal` lists. -/
theorem walGenerations_names (hsite : env.ReliableAt .cleanup)
    (hids : ∀ e ∈ w.disk.wal.entries, e.1 < 2 ^ 64)
    (hnames : names.Perm (others ++ (w.disk.wal.entries.map Prod.fst).map fun i =>
      [] ++ fixedWidthID (UInt64.ofNat i) ++ []))
    (hothers : ∀ name ∈ others, parseWalGeneration name = none) :
    listGenerations env (fun d => d.wal.entries.map Prod.fst) w =
      .ok ((walGenerations names).map UInt64.toNat) (w.onDisk w.disk (w.clock + 3)) :=
  listGenerations_names hsite w.disk.wal (fun _ _ => parseWalGeneration_some_iff) hids hnames hothers
    _ rfl

/-- The snapshots of the store are those that its directory lists. -/
theorem snapshotGenerations_names (hsite : env.ReliableAt .cleanup)
    (hids : ∀ e ∈ w.disk.snapshots.entries, e.1 < 2 ^ 64)
    (hnames : names.Perm (others ++ (w.disk.snapshots.entries.map Prod.fst).map fun i =>
      kSnapshotName ++ [46] ++ fixedWidthID (UInt64.ofNat i) ++ []))
    (hothers : ∀ name ∈ others, (parseSnapshotFileName name).toOption = none) :
    listGenerations env (fun d => d.snapshots.entries.map Prod.fst) w =
      .ok ((snapshotGenerations names).map UInt64.toNat) (w.onDisk w.disk (w.clock + 3)) :=
  listGenerations_names hsite w.disk.snapshots
    (fun _ _ => toOption_eq_some.trans parseSnapshotFileName_ok_iff) hids hnames hothers _ rfl

end Listings

end MinweightStore.Store
