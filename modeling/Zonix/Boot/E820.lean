import Zonix.Mm.PageInit
import Zonix.Lib.X86

/-!
# The memory map: `boot/bootasm.S` and `kern/arch/x86/e820.c`

The boot sector asks the BIOS for one entry after the other, appends each to the table behind
`E820_MEM_BASE`, and counts them there. When the BIOS sets the carry flag, an error code is written
over the count; the kernel does not know of it, and reads it as the number of entries.

Physical memory is that of `Lib.X86`; the kernel reaches it at `KERNEL_BASE`.
-/

namespace Zonix
open Lib.X86

def E820_MEM_BASE : Word := 0x8000#32

def E820_MEM_DATA : Word := E820_MEM_BASE + 4#32

def E820_MAX : ℕ := 20

def INT_ESI_DESC_SIZE : BitVec 16 := 20#16

def INT_ESI_ERROR_CODE : BitVec 16 := 0xFFFF#16

/-- An entry as the BIOS stores it. -/
def E820Entry.words (e : E820Entry) : List Word :=
  [e.addr.extractLsb' 0 32, e.addr.extractLsb' 32 32, e.size.extractLsb' 0 32,
    e.size.extractLsb' 32 32, e.type]

/-- What `int $INT_ESI` answers: an entry and the continuation value in `%ebx`, with the carry flag
clear, or the carry flag set. -/
inductive Response
  | entry (e : E820Entry) (continuation : Word)
  | carry

/-- The memory and the registers that the probe uses. -/
structure Probe where
  mem : Memory
  di : BitVec 16
  ebx : Word

namespace Probe

def setMem (s : Probe) (mem : Memory) : Probe := { s with mem := mem }

/-- `int $INT_ESI`: the carry flag, and the state after it. -/
def int15 (s : Probe) : Response → Bool × Probe
  | .entry e continuation =>
    (false, { s with mem := storeWords s.mem (s.di.setWidth 32) e.words, ebx := continuation })
  | .carry => (true, s)

/-- From `start_probe` to `finish_probe`, with the answers that the BIOS is going to give. -/
def startProbe : List Response → Probe → Option Probe
  | [], _ => none
  | r :: rs, s =>
    let (cf, s) := s.int15 r
    -- a `movw`: only the low half of the count is overwritten
    if cf then some (s.setMem (store16 s.mem E820_MEM_BASE INT_ESI_ERROR_CODE))
    else
      let s := { s with di := s.di + INT_ESI_DESC_SIZE }
      let s := s.setMem (store s.mem E820_MEM_BASE (load s.mem E820_MEM_BASE + 1#32))
      if s.ebx ≠ 0#32 then startProbe rs s else some s

/-- `Probe memory` -/
def probeMemory (mem : Memory) (rs : List Response) : Option Probe :=
  startProbe rs ⟨store mem E820_MEM_BASE 0#32, E820_MEM_DATA.setWidth 16, 0#32⟩

end Probe

/-- `&e820map->map[index]` -/
def itemAddr (index : Word) : Word := E820_MEM_DATA + index * 20#32

/-- `e820map_get_items(index, &addr, &size, &type)`; `none` is the return value 0. -/
def e820mapGetItems (mem : Memory) (index : Word) : Option E820Entry :=
  if (load mem E820_MEM_BASE).sle index then none
  else some ⟨load64 mem (itemAddr index), load64 mem (itemAddr index + 8#32),
    load mem (itemAddr index + 16#32)⟩

/-! ## What the BIOS answers, and what the kernel sees -/

namespace Response

/-- The answers end with the first that sets the carry flag, or has no continuation. -/
def Complete : List Response → Prop
  | [] => False
  | .carry :: rs => rs = []
  | .entry _ continuation :: rs => if continuation = 0#32 then rs = [] else Complete rs

/-- The entries that were returned with the carry flag clear. -/
def entries : List Response → List E820Entry
  | [] => []
  | .carry :: rs => entries rs
  | .entry e _ :: rs => e :: entries rs

end Response

/-- For index 0, 1, 2, ... until it returns 0, `e820map_get_items` yields the entries `es`. -/
def Yields (mem : Memory) (es : List E820Entry) : Prop :=
  ∀ i, i ≤ es.length → e820mapGetItems mem (BitVec.ofNat 32 i) = es[i]?

/-- The table is that of `es`, and the next entry goes behind it. -/
structure Probe.Stored (s : Probe) (es : List E820Entry) : Prop where
  count : load s.mem E820_MEM_BASE = BitVec.ofNat 32 es.length
  di : s.di.toNat = 0x8004 + 20 * es.length
  items : ∀ i (h : i < es.length), Holds s.mem (itemAddr (BitVec.ofNat 32 i)) es[i].words

section Table
variable {s t : Probe} {mem : Memory} {es : List E820Entry} {e : E820Entry} {rs : List Response}

theorem itemAddr_toNat {i : ℕ} (hi : i ≤ E820_MAX) :
    (itemAddr (BitVec.ofNat 32 i)).toNat = 0x8004 + 20 * i := by
  have hdata : E820_MEM_DATA.toNat = 0x8004 := by decide
  have htwenty : (20#32 : Word).toNat = 20 := rfl
  unfold itemAddr
  unfold E820_MAX at hi
  rw [BitVec.toNat_add, BitVec.toNat_mul, BitVec.toNat_ofNat, hdata, htwenty]
  omega

theorem itemAddr_length (h : s.Stored es) (hlen : es.length ≤ E820_MAX) :
    s.di.setWidth 32 = itemAddr (BitVec.ofNat 32 es.length) := by
  apply BitVec.eq_of_toNat_eq
  have hdi := h.di
  unfold E820_MAX at hlen
  rw [itemAddr_toNat hlen, BitVec.toNat_setWidth, hdi]
  omega

theorem words_length (e : E820Entry) : e.words.length = 5 := rfl

/-- Where an item lies. -/
theorem mem_item_iff {i : ℕ} (hi : i ≤ E820_MAX) {x : Word} :
    x ∈ bytes (itemAddr (BitVec.ofNat 32 i)) 20 ↔
      0x8004 + 20 * i ≤ x.toNat ∧ x.toNat < 0x8004 + 20 * i + 20 := by
  have haddr := itemAddr_toNat hi
  unfold E820_MAX at hi
  rw [mem_bytes_iff (by omega), haddr]

/-- Where the count lies. -/
theorem mem_count_iff {x : Word} :
    x ∈ bytes E820_MEM_BASE 4 ↔ 0x8000 ≤ x.toNat ∧ x.toNat < 0x8004 := by
  have hbase : E820_MEM_BASE.toNat = 0x8000 := by decide
  rw [mem_bytes_iff (by rw [hbase]; omega), hbase]

theorem words_load {a : Word} (h : Holds mem a e.words) :
    (⟨load64 mem a, load64 mem (a + 8#32), load mem (a + 16#32)⟩ : E820Entry) = e := by
  obtain ⟨haddr, haddrHigh, hsize, hsizeHigh, htype, -⟩ := h
  simp only [BitVec.add_assoc, BitVec.reduceAdd] at haddrHigh hsize hsizeHigh htype
  have haddr64 : load64 mem a = e.addr := by
    rw [load64, haddrHigh, haddr, BitVec.extractLsb'_append_extractLsb'_eq_extractLsb' (by omega)]
    exact BitVec.extractLsb'_eq_self
  have hsize64 : load64 mem (a + 8#32) = e.size := by
    rw [load64, BitVec.add_assoc, show (8#32 + 4#32 : Word) = 12#32 from rfl, hsizeHigh, hsize,
      BitVec.extractLsb'_append_extractLsb'_eq_extractLsb' (by omega)]
    exact BitVec.extractLsb'_eq_self
  rw [haddr64, hsize64, htype]

/-- The empty table. -/
theorem stored_nil (mem : Memory) (ebx : Word) :
    Probe.Stored ⟨store mem E820_MEM_BASE 0#32, E820_MEM_DATA.setWidth 16, ebx⟩ [] :=
  ⟨load_store, rfl, fun i h => absurd h (by simp)⟩

/-- The state behind `cont`, when the BIOS answered with an entry. -/
def Probe.stored (s : Probe) (e : E820Entry) (continuation : Word) : Probe :=
  let mem := storeWords s.mem (s.di.setWidth 32) e.words
  ⟨store mem E820_MEM_BASE (load mem E820_MEM_BASE + 1#32), s.di + INT_ESI_DESC_SIZE, continuation⟩

/-- What lies in front of the next entry stays. -/
theorem Probe.Stored.entry_off (h : s.Stored es) (hlen : es.length < E820_MAX) (e : E820Entry)
    {x : Word} (hx : x.toNat < 0x8004 + 20 * es.length) :
    storeWords s.mem (s.di.setWidth 32) e.words x = s.mem x := by
  have hmax : E820_MAX = 20 := rfl
  rw [itemAddr_length h hlen.le]
  apply storeWords_off
  · rw [words_length, mem_item_iff hlen.le]
    omega
  · rw [words_length]
    omega

theorem Probe.Stored.entry_count (h : s.Stored es) (hlen : es.length < E820_MAX) (e : E820Entry) :
    load (storeWords s.mem (s.di.setWidth 32) e.words) E820_MEM_BASE =
      BitVec.ofNat 32 es.length := by
  rw [load_congr fun x hx => h.entry_off hlen e (by rw [mem_count_iff] at hx; omega), h.count]

theorem Probe.Stored.entry_holds (h : s.Stored es) (hlen : es.length < E820_MAX) (e : E820Entry) :
    Holds (storeWords s.mem (s.di.setWidth 32) e.words) (itemAddr (BitVec.ofNat 32 es.length))
      e.words := by
  rw [itemAddr_length h hlen.le]
  exact holds_storeWords (by rw [words_length]; omega)

/-- The items do not change with the count. -/
theorem holds_count {i : ℕ} {v : Word} (hi : i ≤ E820_MAX)
    (h : Holds mem (itemAddr (BitVec.ofNat 32 i)) e.words) :
    Holds (store mem E820_MEM_BASE v) (itemAddr (BitVec.ofNat 32 i)) e.words := by
  refine h.congr (by rw [words_length]; omega) fun x hx => ?_
  rw [words_length, mem_item_iff hi] at hx
  apply store_off
  rw [mem_count_iff]
  omega

/-- One more entry. -/
theorem Probe.Stored.append (h : s.Stored es) (hlen : es.length < E820_MAX) (e : E820Entry)
    (continuation : Word) : (s.stored e continuation).Stored (es ++ [e]) := by
  have hmax : E820_MAX = 20 := rfl
  refine ⟨?_, ?_, fun i hi => ?_⟩
  · show load (store _ E820_MEM_BASE (load _ E820_MEM_BASE + 1#32)) E820_MEM_BASE = _
    rw [load_store, h.entry_count hlen, List.length_append, List.length_singleton]
    apply BitVec.eq_of_toNat_eq
    rw [BitVec.toNat_add, BitVec.toNat_ofNat, BitVec.toNat_ofNat, BitVec.toNat_ofNat]
    omega
  · have hdi := h.di
    show (s.di + INT_ESI_DESC_SIZE).toNat = _
    rw [BitVec.toNat_add, hdi, List.length_append, List.length_singleton,
      show INT_ESI_DESC_SIZE.toNat = 20 from rfl]
    omega
  · rw [List.length_append, List.length_singleton] at hi
    apply holds_count (by omega)
    by_cases hlast : i < es.length
    · -- an entry from before lies in front of the new one
      rw [List.getElem_append_left hlast]
      refine (h.items i hlast).congr (by rw [words_length]; omega) fun x hx => ?_
      rw [words_length, mem_item_iff (by omega)] at hx
      exact h.entry_off hlen e (by omega)
    · obtain rfl : i = es.length := by omega
      rw [List.getElem_concat_length rfl]
      exact h.entry_holds hlen e

theorem sle_ofNat {n i : ℕ} (hn : n < 2 ^ 31) (hi : i < 2 ^ 31) :
    (BitVec.ofNat 32 n).sle (BitVec.ofNat 32 i) = decide (n ≤ i) := by
  have hsigned : ∀ k < 2 ^ 31, (BitVec.ofNat 32 k).toInt = k := by
    intro k hk
    rw [BitVec.toInt_eq_toNat_of_lt (by rw [BitVec.toNat_ofNat]; omega), BitVec.toNat_ofNat]
    omega
  rw [BitVec.sle_eq_decide, hsigned n hn, hsigned i hi, decide_eq_decide]
  omega

/-- The kernel sees a table that is stored. -/
theorem Probe.Stored.yields (h : s.Stored es) (hlen : es.length ≤ E820_MAX) :
    Yields s.mem es := by
  intro i hi
  have hmax : E820_MAX = 20 := rfl
  have hsle : (load s.mem E820_MEM_BASE).sle (BitVec.ofNat 32 i) = decide (es.length ≤ i) := by
    rw [h.count, sle_ofNat (by omega) (by omega)]
  unfold e820mapGetItems
  rw [hsle]
  by_cases hend : es.length ≤ i
  · rw [if_pos (by rwa [decide_eq_true_eq]), List.getElem?_eq_none hend]
  · have hlt : i < es.length := by omega
    rw [if_neg (by rwa [decide_eq_true_eq]), List.getElem?_eq_getElem hlt]
    rw [words_load (h.items i hlt)]

/-- The error code over the count makes it `INT_ESI_ERROR_CODE`. -/
theorem count_carry (h : s.Stored es) (hlen : es.length ≤ E820_MAX) :
    load (store16 s.mem E820_MEM_BASE INT_ESI_ERROR_CODE) E820_MEM_BASE = 0xFFFF#32 := by
  have hmax : E820_MAX = 20 := rfl
  have hhigh : (load s.mem E820_MEM_BASE).extractLsb' 16 16 = 0#16 := by
    apply BitVec.eq_of_toNat_eq
    rw [BitVec.extractLsb'_toNat, h.count, BitVec.toNat_ofNat, Nat.shiftRight_eq_div_pow]
    show _ = 0
    omega
  rw [load_store16, hhigh]
  rfl

theorem startProbe_entry (e : E820Entry) (continuation : Word) :
    Probe.startProbe (.entry e continuation :: rs) s =
      if continuation ≠ 0#32 then Probe.startProbe rs (s.stored e continuation)
      else some (s.stored e continuation) := rfl

/-- The loop, from the table of the entries so far. -/
theorem startProbe_stored (h : s.Stored es) (hrs : Response.Complete rs)
    (hlen : es.length + (Response.entries rs).length ≤ E820_MAX) :
    ∃ t, Probe.startProbe rs s = some t ∧
      (.carry ∈ rs → load t.mem E820_MEM_BASE = 0xFFFF#32) ∧
      (.carry ∉ rs → t.Stored (es ++ Response.entries rs)) := by
  induction rs generalizing s es with
  | nil => exact hrs.elim
  | cons r rs ih =>
    cases r with
    | carry =>
      exact ⟨_, rfl, fun _ => count_carry h (le_trans (Nat.le_add_right _ _) hlen),
        fun hno => absurd List.mem_cons_self hno⟩
    | entry e continuation =>
      have hentries : Response.entries (.entry e continuation :: rs) = e :: Response.entries rs :=
        rfl
      have hcarry : Response.carry ∈ Response.entry e continuation :: rs ↔
          Response.carry ∈ rs := by
        rw [List.mem_cons, or_iff_right (by simp)]
      rw [hentries, List.length_cons] at hlen
      have happend := h.append (by omega) e continuation
      rw [hcarry, hentries]
      unfold Response.Complete at hrs
      rw [startProbe_entry]
      by_cases hzero : continuation = 0#32
      · -- the last entry
        rw [if_pos hzero] at hrs
        subst hrs
        rw [if_neg (not_not_intro hzero)]
        exact ⟨_, rfl, fun hmem => absurd hmem List.not_mem_nil, fun _ => happend⟩
      · rw [if_neg hzero] at hrs
        rw [if_pos hzero, List.append_cons]
        apply ih happend hrs
        rw [List.length_append, List.length_singleton]
        omega

/-- The kernel sees the entries of the BIOS, and nothing else, when no answer set the carry flag,
and only then. -/
theorem probeMemory_yields_iff (mem : Memory) (hrs : Response.Complete rs)
    (hlen : (Response.entries rs).length ≤ E820_MAX) :
    ∃ s, Probe.probeMemory mem rs = some s ∧
      (Yields s.mem (Response.entries rs) ↔ .carry ∉ rs) := by
  have hmax : E820_MAX = 20 := rfl
  have hloop := startProbe_stored (stored_nil mem 0#32) hrs (by rw [List.length_nil]; omega)
  obtain ⟨s, hs, hcarry, hstored⟩ := hloop
  refine ⟨s, hs, fun hyields hmem => ?_, fun hno => (hstored hno).yields hlen⟩
  -- the item behind the last entry is yielded too
  have hend := hyields _ le_rfl
  rw [List.getElem?_eq_none le_rfl] at hend
  unfold e820mapGetItems at hend
  rw [hcarry hmem, sle_ofNat (by decide) (by omega), if_neg] at hend
  · exact absurd hend (Option.some_ne_none _)
  · rw [decide_eq_true_eq]
    omega

/-- One entry. -/
theorem probeMemory_yields_one :
    ∃ s, Probe.probeMemory (fun _ => 0#8) [.entry ⟨0#64, 0x9FC00#64, 1#32⟩ 0#32] = some s ∧
      Yields s.mem [⟨0#64, 0x9FC00#64, 1#32⟩] := by
  have hrs : Response.Complete [.entry ⟨0#64, 0x9FC00#64, 1#32⟩ 0#32] := rfl
  have hone := probeMemory_yields_iff (fun _ => 0#8) hrs (by decide)
  obtain ⟨s, hs, hyields⟩ := hone
  exact ⟨s, hs, hyields.mpr (by simp)⟩

/-- The BIOS reports the end of its map by the carry flag, behind one entry: the kernel sees 65535
items. -/
theorem probeMemory_error_count :
    ∃ s, Probe.probeMemory (fun _ => 0#8)
        [.entry ⟨0#64, 0x9FC00#64, 1#32⟩ 1#32, .carry] = some s ∧
      e820mapGetItems s.mem 1#32 ≠ none ∧ e820mapGetItems s.mem 65534#32 ≠ none ∧
      ¬ Yields s.mem [⟨0#64, 0x9FC00#64, 1#32⟩] := by
  have hrs : Response.Complete [.entry ⟨0#64, 0x9FC00#64, 1#32⟩ 1#32, .carry] := by
    simp [Response.Complete]
  have hloop := startProbe_stored (stored_nil (fun _ => 0#8) 0#32) hrs (by decide)
  obtain ⟨s, hs, hcarry, -⟩ := hloop
  have hcount := hcarry (by simp)
  have hyielded : ∀ i : Word, (0xFFFF#32 : Word).sle i = false →
      e820mapGetItems s.mem i ≠ none := by
    intro i hi
    unfold e820mapGetItems
    rw [hcount, hi, if_neg (by decide)]
    exact Option.some_ne_none _
  refine ⟨s, hs, hyielded _ (by decide), hyielded _ (by decide), fun hyields => ?_⟩
  exact hyielded 1#32 (by decide) (hyields 1 le_rfl)

end Table
end Zonix
