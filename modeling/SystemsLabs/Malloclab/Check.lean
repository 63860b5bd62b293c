import SystemsLabs.Malloclab.EndLinks
import SystemsLabs.Malloclab.Requests

/-!
# The free-list walk of `mm_check`

`mm_check` follows `NEXT_PTR` from the root until it is null, so it needs the list to end in a null
link. Whether it does depends on what clients left in the payloads they released: a block that
becomes the first or the last one keeps that word as its outer link (`EndLinks`).

* `checkFreeList_eq` — on a list with null ends the walk visits each block once and reports nothing.
* `nullEnds_of_guarded` — the ends are null in every run in which no block becomes an end with
  something else in that word, and the first one that does ends that.

**Scope.** The loop of `mm_check` over the heap and what it prints are left out. The runs are those
of `Client`.
-/

namespace SystemsLabs.Malloclab

open SystemsLabs.Lib

variable {c c₀ c' : Config} {op : Op} {ops : List Op} {s s' s₁ s₂ : State}
  {segs L L₁ L₂ l₁ l₂ rest : List Seg} {f r x z : Seg} {n p : ℕ}

/-! ## The loop -/

/-- The free-list loop of `mm_check` from `bptr` on, cut off after `fuel` rounds: the blocks it
visits, and whether it ends without a report of an allocated block. -/
def checkFreeListFuel : ℕ → State → ℕ → Option (List ℕ × Bool)
  | 0, _, _ => none
  | fuel + 1, s, bptr => do
    if bptr = NULL then return ([], true)
    let next ← get s (nextPtr bptr)
    if next ≠ NULL then
      -- "points to an allocated block"
      if (← getAlloc s (hdrp next)) ≠ 0 then return ([bptr], false)
    -- "is marked as allocated"
    if (← getAlloc s (hdrp bptr)) ≠ 0 then return ([bptr], false)
    let (visited, ok) ← checkFreeListFuel fuel s (← get s (nextPtr bptr))
    return (bptr :: visited, ok)

/-- The loop from `free_list_root`. It writes nothing and there are `2 ^ 32` pointers, so one still
running after as many rounds never ends. -/
def checkFreeList (s : State) : Option (List ℕ × Bool) :=
  checkFreeListFuel (2 ^ 32) s s.freeListRoot

/-- From the head of a final part of the list on, the loop visits that part. -/
theorem checkFreeListFuel_eq (h : Rep s segs L) (hends : NullEnds s) (B : List Seg) :
    ∀ fuel A, L = A ++ B → B.length < fuel →
      checkFreeListFuel fuel s ((B.map Seg.ptr).headD NULL) = some (B.map Seg.ptr, true) := by
  induction B with
  | nil =>
      rintro (_ | fuel) A - hlen
      · exact absurd hlen (Nat.not_lt_zero _)
      · simp [checkFreeListFuel]
  | cons z B ih =>
      rintro (_ | fuel) A hL hlen
      · exact absurd hlen (Nat.not_lt_zero _)
      have hzL : z ∈ L := by simp [hL]
      have hlinked := h.list.linked
      rw [hL, List.map_append] at hlinked
      have htail := (Linked.append_iff.mp hlinked).2.1
      have hnext : get s (nextPtr z.ptr) = some ((B.map Seg.ptr).headD NULL) := by
        rw [h.blocks.get_nextPtr (h.mem_segs hzL) rfl rfl]
        cases B with
        | nil =>
            obtain ⟨b, C, hC⟩ : ∃ b C, L = b :: C := List.exists_cons_of_ne_nil (by simp [hL])
            exact congrArg some ((h.nullEnds_iff hC hL).mp hends).1
        | cons w B => exact congrArg some (Linked.cons_cons_iff.mp htail).1.1
      have hrec := ih fuel (A ++ [z]) (by simp [hL]) (by simpa using hlen)
      have hnull := h.blocks.ptr_ne_null (h.mem_segs hzL)
      have halloc := h.getAlloc_eq hzL
      cases B with
      | nil =>
          have hnext₀ : get s (nextPtr z.ptr) = some NULL := hnext
          have hrec₀ : checkFreeListFuel fuel s NULL = some ([], true) := hrec
          simp [checkFreeListFuel, hnull, hnext₀, halloc, hrec₀]
      | cons w B =>
          have hwL : w ∈ L := by simp [hL]
          have hnext₁ : get s (nextPtr z.ptr) = some w.ptr := hnext
          have hrec₁ : checkFreeListFuel fuel s w.ptr = some ((w :: B).map Seg.ptr, true) := hrec
          simp [checkFreeListFuel, hnull, hnext₁, h.blocks.ptr_ne_null (h.mem_segs hwL), halloc,
            h.getAlloc_eq hwL, hrec₁]

/-- A next link that leads to no block of the heap gives the loop no defined result. -/
theorem checkFreeListFuel_eq_none {q : ℕ} (hp : p ≠ NULL) (hnext : get s (nextPtr p) = some q)
    (hq : q ≠ NULL) (halloc : getAlloc s (hdrp q) = none) (fuel : ℕ) :
    checkFreeListFuel fuel s p = none := by
  cases fuel with
  | zero => rfl
  | succ fuel => simp [checkFreeListFuel, hp, hnext, hq, halloc]

/-- On a list with null ends the loop visits the blocks of the list, in order, and reports
nothing. -/
theorem checkFreeList_eq (h : Rep s segs L) (hends : NullEnds s) :
    checkFreeList s = some (L.map Seg.ptr, true) := by
  unfold checkFreeList
  rw [h.list.root]
  exact checkFreeListFuel_eq h hends L _ [] rfl h.length_lt

/-! ## `mm_free` -/

/-- Writing a word changes the memory only. -/
theorem put_eq_some {v : ℕ} (h : put s p v = some s') : ∃ m, s' = { s with mem := m } := by
  obtain ⟨-, rfl⟩ := put_eq_some_iff.mp h
  exact ⟨s.mem.store32 p v, rfl⟩

/-- `putTags` changes the memory only. -/
theorem putTags_eq_some {w : ℕ} (h : putTags s p w = some s') : ∃ m, s' = { s with mem := m } := by
  simp only [putTags, Option.bind_eq_bind, Option.bind_eq_some_iff] at h
  obtain ⟨t, ht, a, -, hs'⟩ := h
  obtain ⟨m, rfl⟩ := put_eq_some ht
  obtain ⟨m', rfl⟩ := put_eq_some hs'
  exact ⟨m', rfl⟩

/-- Writing the tags of a segment off the list keeps the links out of the list. -/
theorem Rep.nullEnds_putTags (h : Rep s' segs L) (hx : x ∈ segs) {w : ℕ}
    (hput : putTags s p w = some s') (hframe : ∀ a, ¬ x.TagByte a → s'.mem a = s.mem a) :
    NullEnds s ↔ NullEnds s' := by
  obtain ⟨m, rfl⟩ := putTags_eq_some hput
  refine h.nullEnds_congr rfl rfl rfl rfl fun z hz a ha => (hframe a ?_).symm
  exact h.blocks.not_tagByte_of_linkByte (h.mem_segs hz) hx (h.isBlock hz).size_ge ha

/-- The condition on a block that goes on the list reads its two link words only. -/
theorem ClearAtEnds.congr {m m' : Mem} (h : ∀ a, x.LinkByte a → m' a = m a) :
    ClearAtEnds m' x L ↔ ClearAtEnds m x L := by
  have h₁ : m'.load32 (x.ptr + 4) = m.load32 (x.ptr + 4) :=
    Mem.load32_congr fun a hlo hhi => h a ⟨by omega, by omega⟩
  have h₂ : m'.load32 x.ptr = m.load32 x.ptr :=
    Mem.load32_congr fun a hlo hhi => h a ⟨hlo, by omega⟩
  unfold ClearAtEnds
  rw [h₁, h₂]

/-- A release keeps the links out of the list null exactly if the released block holds null in those
of its first two words that become such a link. -/
theorem mmFree_nullEnds (h : Rep s segs L) (hx : x ∈ segs) (hlive : x.kind = .live n)
    (hends : NullEnds s) (hret : mmFree s x.ptr = some s') :
    NullEnds s' ↔ ClearAtEnds s.mem x L := by
  have hxb : x.IsBlock := by simp [Seg.IsBlock, hlive]
  have hxf : x.isFree = false := by simp [Seg.isFree, hlive]
  have h16 := hxb.size_ge
  have hb := h.blocks.bounds hx
  have hmod := x.size_mod
  have hsize := h.blocks.getSize_eq hx hxb
  obtain ⟨l₁, l₂, rfl⟩ := List.append_of_mem hx
  have hmem : x.asRaw ∈ l₁ ++ x.asRaw :: l₂ := by simp
  obtain ⟨s₁, hput, h₁, htag, -, hframe⟩ := putTags_spec (h.asRaw hxf) hmem rfl (w := x.size)
    (by change x.size / 8 * 8 = x.size; omega) (by omega)
  have hput' : putTags s x.ptr x.size = some s₁ := hput
  have hco : coalesce s₁ x.ptr = some (s₁, x.ptr) := coalesce_eq (x := x.asRaw) h₁.blocks hmem
  have hadd : addFreeBlock s₁ x.ptr = some s' := by
    simpa only [mmFree, hsize, Option.bind_eq_bind, Option.bind_some, pack_zero hmod (by omega),
      hput', hco] using hret
  have hends₁ : NullEnds s₁ := (h₁.nullEnds_putTags hmem hput hframe).mp hends
  rw [addFreeBlock_nullEnds (x := x.asRaw) h₁ rfl htag hends₁ hadd]
  refine (ClearAtEnds.congr fun a ha => hframe a ?_ : ClearAtEnds s₁.mem x.asRaw L ↔ _)
  exact h₁.blocks.not_tagByte_of_linkByte hmem hmem h16 ha

/-! ## `mm_malloc` -/

/-- The block taken off the list leaves the links out of the list null. -/
theorem takeFree_nullEnds (h : Rep s (l₁ ++ f :: l₂) (L₁ ++ f :: L₂)) (hends : NullEnds s)
    (hremove : removeFreeBlock s f.ptr = some s₁) {w : ℕ} (hput : putTags s₁ p w = some s₂)
    (h₂ : Rep s₂ (l₁ ++ x :: rest ++ l₂) (L₁ ++ L₂))
    (hframe : ∀ a, ¬ x.TagByte a → s₂.mem a = s₁.mem a) : NullEnds s₂ :=
  (h₂.nullEnds_putTags (by simp) hput hframe).mp (removeFreeBlock_nullEnds h hends hremove)

/-- The removal writes to other blocks only. -/
theorem removeFreeBlock_of_extent (h : Rep s (l₁ ++ f :: l₂) (L₁ ++ f :: L₂)) (hf : f.kind = .free)
    (hremove : removeFreeBlock s f.ptr = some s₁) {a : ℕ} (ha : f.Extent a) :
    s₁.mem a = s.mem a := by
  obtain ⟨s₁', hremove', -, -, -, hframe⟩ :=
    removeFreeBlock_spec h hf (y := f.asRaw) rfl rfl rfl
  obtain rfl := Option.some.inj (hremove.symm.trans hremove')
  refine hframe a fun z hz hl => ?_
  have hzL : z ∈ L₁ ++ f :: L₂ := ((List.sublist_cons_self f L₂).append_left L₁).mem hz
  have hzf : z ≠ f := by
    rintro rfl
    obtain ⟨-, hcons, hcross⟩ := List.pairwise_append.mp h.pairwise_ptr_ne
    rcases List.mem_append.mp hz with hz | hz
    · exact hcross z hz z List.mem_cons_self rfl
    · exact (List.pairwise_cons.mp hcons).1 z hz rfl
  have hext : z.Extent a := hl.extent (h.isBlock hzL).size_ge
  exact h.blocks.not_extent (h.mem_segs hzL) (List.mem_append_right _ List.mem_cons_self) hzf hext
    ha

/-- What is left of a free block that a smaller one is cut from, if it is not put back. -/
theorem exists_raw_rest {a : ℕ} (hamod : a % 8 = 0) (hle : a ≤ f.size) (hlt : f.size < a + 16) :
    ∃ rest, Tiles Seg.ptr Seg.size (f.ptr + a) rest (f.ptr + f.size) ∧
      ∀ y ∈ rest, y.kind = .raw := by
  have hfmod := f.size_mod
  have hpmod := f.ptr_mod
  by_cases hexact : f.size = a
  · exact ⟨[], by simp [hexact], by simp⟩
  · refine ⟨[⟨f.ptr + a, 8, .raw, by omega, rfl, le_rfl⟩], ⟨rfl, ?_⟩, by simp⟩
    change f.ptr + a + 8 = f.ptr + f.size
    omega

section reuse

variable (h : Rep s (l₁ ++ f :: l₂) (L₁ ++ f :: L₂)) (hn : n + 15 < 2 ^ 32) (hpos : n ≠ 0)
  (hfits : fitsFreeList s (adjust n) = some true) (hchoose : chooseFree s (adjust n) = some f.ptr)
  (hf : f.kind = .free) (hle : adjust n ≤ f.size) (hx : Handed n f.ptr x) (hends : NullEnds s)
  (hret : mmMalloc s n = some (s', p))

include h hn hpos hfits hchoose hf hle hx hends hret

/-- A part is split off and put on the list: its first two words become links. -/
theorem reuse_nullEnds_of_split (hr : r.kind = .raw) (hrptr : r.ptr = f.ptr + adjust n)
    (hrsize : r.size + adjust n = f.size) (h16 : 16 ≤ r.size) :
    NullEnds s' ↔ ClearAtEnds s.mem r (L₁ ++ L₂) := by
  obtain ⟨hamod, hage, ha16, halt⟩ := adjust_spec hn
  have hxptr := hx.ptr
  have hxsize := hx.size
  have hrmod := r.size_mod
  have hb := h.blocks.bounds (List.mem_append_right l₁ List.mem_cons_self)
  have hsub : sub f.size (adjust n) = r.size := by
    rw [sub_eq hle (by omega)]
    omega
  have htiles : Tiles Seg.ptr Seg.size (f.ptr + x.size) [r] (f.ptr + f.size) :=
    ⟨by omega, by change f.ptr + x.size + r.size = f.ptr + f.size; omega⟩
  obtain ⟨s₁, s₂, hremove, hcsize, hput, h₂, htag, -, -, hframe₂, -⟩ :=
    takeFree_spec h hf hn hx [r] htiles (by simpa using hr)
  have hends₂ := takeFree_nullEnds h hends hremove hput h₂ hframe₂
  have hxmem : x ∈ l₁ ++ x :: [r] ++ l₂ := by simp
  have hrmem : r ∈ l₁ ++ x :: [r] ++ l₂ := by simp
  obtain ⟨s₃, hput₃, h₃, htag₃, -, hframe₃⟩ := putTags_spec h₂ hrmem hr (w := r.size) (by omega)
    (by omega)
  have hends₃ : NullEnds s₃ := (h₃.nullEnds_putTags hrmem hput₃ hframe₃).mp hends₂
  have h₃' : Rep s₃ (l₁ ++ [x] ++ r :: l₂) (L₁ ++ L₂) := by simpa using h₃
  have hnext : nextBlkp s₂ f.ptr = some r.ptr := by
    rw [← hxptr, h₂.blocks.nextBlkp_of_tagged hxmem htag (by omega), hrptr, hxptr, hxsize]
  have hput₃' : putTags s₂ r.ptr (pack r.size 0) = some s₃ := by
    rw [pack_zero hrmod (by omega)]
    exact hput₃
  have hge : dsize + overhead ≤ r.size := by
    simp only [dsize, overhead]
    omega
  have hadd : addFreeBlock s₃ r.ptr = some s' := by
    simp only [mmMalloc, Nat.le_zero_eq, hpos, if_false, hfits, if_true, hchoose, hremove, hcsize,
      hput, hsub, hge, hnext, hput₃', Option.bind_eq_bind, Option.bind_some] at hret
    obtain ⟨t, hadd, hret⟩ := Option.bind_eq_some_iff.mp hret
    rw [hadd, (Prod.mk.inj (Option.some.inj hret)).1]
  rw [addFreeBlock_nullEnds h₃' hr htag₃ hends₃ hadd]
  -- the words that become links are written neither by the removal nor by the tags
  refine ClearAtEnds.congr fun a ha => ?_
  unfold Seg.LinkByte at ha
  have hext : f.Extent a := by
    unfold Seg.Extent
    omega
  rw [hframe₃ a, hframe₂ a, removeFreeBlock_of_extent h hf hremove hext]
  · unfold Seg.TagByte
    omega
  · unfold Seg.TagByte
    omega

/-- The rest is too small to go on the list. -/
theorem reuse_nullEnds_of_whole (hlt : f.size < adjust n + 16) : NullEnds s' := by
  obtain ⟨hamod, -⟩ := adjust_spec hn
  have hfmod := f.size_mod
  have hb := h.blocks.bounds (List.mem_append_right l₁ List.mem_cons_self)
  have hsub : sub f.size (adjust n) = f.size - adjust n := sub_eq hle (by omega)
  obtain ⟨rest, htiles, hraw⟩ := exists_raw_rest hamod hle hlt
  rw [← hx.size] at htiles
  obtain ⟨s₁, s₂, hremove, hcsize, hput, h₂, -, -, -, hframe₂, -⟩ :=
    takeFree_spec h hf hn hx rest htiles hraw
  have hsmall : ¬ dsize + overhead ≤ f.size - adjust n := by
    simp only [dsize, overhead]
    omega
  have hret' : mmMalloc s n = some (s₂, f.ptr) := by
    simp [mmMalloc, hpos, hfits, hchoose, hremove, hcsize, hput, hsub, hsmall]
  obtain ⟨rfl, -⟩ := Prod.mk.inj (Option.some.inj (hret'.symm.trans hret))
  exact takeFree_nullEnds h hends hremove hput h₂ hframe₂

end reuse

/-- A request served from the free list keeps the links out of the list null exactly if the part
that is split off, if any, holds null in those of its first two words that become such a link. -/
theorem reuse_nullEnds (h : Rep s segs (L₁ ++ f :: L₂)) (hn : n + 15 < 2 ^ 32) (hpos : n ≠ 0)
    (hfits : fitsFreeList s (adjust n) = some true) (hchoose : chooseFree s (adjust n) = some f.ptr)
    (hbest : BestFit (L₁ ++ f :: L₂) (adjust n) f) (hends : NullEnds s)
    (hret : mmMalloc s n = some (s', p)) :
    NullEnds s' ↔ ∀ r : Seg, r.ptr = f.ptr + adjust n → r.size + adjust n = f.size →
      16 ≤ r.size → ClearAtEnds s.mem r (L₁ ++ L₂) := by
  obtain ⟨hamod, hage, ha16, halt⟩ := adjust_spec hn
  have hfmem : f ∈ L₁ ++ f :: L₂ := hbest.mem
  have hfkind := Seg.isFree_iff.mp (h.mem_list.mp hfmem).2
  have hfmod := f.size_mod
  have hpmod := f.ptr_mod
  let x : Seg := ⟨f.ptr, adjust n, .live n, hpmod, hamod, max_le ha16 hage⟩
  have hx : Handed n f.ptr x := ⟨rfl, rfl, rfl⟩
  obtain ⟨l₁, l₂, rfl⟩ := List.append_of_mem (h.mem_segs hfmem)
  rcases Nat.lt_or_ge f.size (adjust n + 16) with hlt | hge
  · refine iff_of_true (reuse_nullEnds_of_whole h hn hpos hfits hchoose hfkind hbest.fits hx hends
      hret hlt) fun r _ hsize h16 => ?_
    omega
  · have hsplit : ∀ r : Seg, r.kind = .raw → r.ptr = f.ptr + adjust n →
        r.size + adjust n = f.size → 16 ≤ r.size →
        (NullEnds s' ↔ ClearAtEnds s.mem r (L₁ ++ L₂)) :=
      fun r => reuse_nullEnds_of_split h hn hpos hfits hchoose hfkind hbest.fits hx hends hret
    constructor
    · exact fun hclear r hptr hsize h16 =>
        (hsplit r.asRaw rfl hptr hsize h16).mp hclear
    · intro hall
      let r : Seg := ⟨f.ptr + adjust n, f.size - adjust n, .raw, by omega, by omega,
        by change 8 ≤ f.size - adjust n; omega⟩
      have hsize : r.size + adjust n = f.size := Nat.sub_add_cancel hbest.fits
      have h16 : 16 ≤ r.size := Nat.le_sub_of_add_le' hge
      exact (hsplit r rfl rfl hsize h16).mpr (hall r rfl hsize h16)

/-! ## The condition on a step -/

/-- A block of `k` bytes that goes on the list at `p` beside the blocks `others` holds null in those
of its first two words that become a link out of the list. -/
def Config.ClearIfEnd (c : Config) (p k : ℕ) (others : List ℕ) : Prop :=
  ((∀ q ∈ others, k ≤ blockSize c.st q) → c.st.mem.load32 (p + 4) = NULL) ∧
    ((∀ q ∈ others, blockSize c.st q ≤ k) → (others ≠ [] → ∃ q ∈ others, blockSize c.st q < k) →
      c.st.mem.load32 p = NULL)

instance (c : Config) (p k : ℕ) (others : List ℕ) : Decidable (c.ClearIfEnd p k others) :=
  inferInstanceAs (Decidable (_ ∧ _))

/-- The block that the operation puts on the list holds null in the words that become links out of
it: the released block, or the part that a request splits off the block it takes. -/
def LinksClear (c : Config) : Op → Prop
  | .malloc n => n ≠ 0 → fitsFreeList c.st (adjust n) = some true →
      ∀ f ∈ chooseFree c.st (adjust n), adjust n + minBlockSize ≤ blockSize c.st f →
        c.ClearIfEnd (f + adjust n) (blockSize c.st f - adjust n) (c.freed.filter (· ≠ f))
  | .free p => c.ClearIfEnd p (blockSize c.st p) c.freed
  | .write _ _ => True

instance (c : Config) : DecidablePred (LinksClear c)
  | .malloc n => inferInstanceAs (Decidable (n ≠ 0 → fitsFreeList c.st (adjust n) = some true →
      ∀ f ∈ chooseFree c.st (adjust n), adjust n + minBlockSize ≤ blockSize c.st f →
        c.ClearIfEnd (f + adjust n) (blockSize c.st f - adjust n) (c.freed.filter (· ≠ f))))
  | .free _ => inferInstanceAs (Decidable (Config.ClearIfEnd _ _ _ _))
  | .write _ _ => inferInstanceAs (Decidable True)

/-- The blocks that were freed are those of the list. -/
theorem Abs.forall_freed_iff_list (h : Abs c segs L) {P : ℕ → ℕ → Prop} :
    (∀ q ∈ c.freed, P q (blockSize c.st q)) ↔ ∀ z ∈ L, P z.ptr z.size := by
  constructor
  · intro hq z hz
    have hfree : z.ptr ∈ c.freed :=
      (h.freed _).mpr (h.rep.mem_map_ptr_iff.mp (List.mem_map_of_mem hz))
    have := hq z.ptr hfree
    rwa [h.rep.blocks.blockSize_eq (h.rep.mem_segs hz) (h.rep.isBlock hz)] at this
  · intro hz q hq
    obtain ⟨z, hzL, rfl⟩ := List.mem_map.mp (h.rep.mem_map_ptr_iff.mpr ((h.freed q).mp hq))
    rw [h.rep.blocks.blockSize_eq (h.rep.mem_segs hzL) (h.rep.isBlock hzL)]
    exact hz z hzL

/-- The blocks that were freed except `f` are those of the list except `f`. -/
theorem Abs.forall_freed_ne_iff (h : Abs c segs (L₁ ++ f :: L₂)) {P : ℕ → ℕ → Prop} :
    (∀ q ∈ c.freed.filter (· ≠ f.ptr), P q (blockSize c.st q)) ↔
      ∀ z ∈ L₁ ++ L₂, P z.ptr z.size := by
  have hne : ∀ z ∈ L₁ ++ L₂, z.ptr ≠ f.ptr := by
    obtain ⟨-, hcons, hcross⟩ := List.pairwise_append.mp h.rep.pairwise_ptr_ne
    intro z hz
    rcases List.mem_append.mp hz with hz | hz
    · exact hcross z hz f (by simp)
    · exact ((List.pairwise_cons.mp hcons).1 z hz).symm
  have hlist := h.forall_freed_iff_list (P := fun q k => q ≠ f.ptr → P q k)
  simp only [List.mem_filter, decide_eq_true_eq, and_imp]
  rw [forall₂_congr fun q _ => imp_congr_left (Iff.refl (q ≠ f.ptr)), hlist]
  constructor
  · intro hall z hz
    exact hall z (((List.sublist_cons_self f L₂).append_left L₁).mem hz) (hne z hz)
  · intro hall z hz hzf
    apply hall z
    simp only [List.mem_append, List.mem_cons] at hz ⊢
    rcases hz with hz | rfl | hz
    · exact Or.inl hz
    · exact absurd rfl hzf
    · exact Or.inr hz

/-- The condition on the blocks that the configuration knows and the one on the list. -/
theorem clearIfEnd_iff {others : List ℕ} {M : List Seg}
    (hothers : ∀ P : ℕ → ℕ → Prop,
      (∀ q ∈ others, P q (blockSize c.st q)) ↔ ∀ z ∈ M, P z.ptr z.size) :
    c.ClearIfEnd x.ptr x.size others ↔ ClearAtEnds c.st.mem x M := by
  have hnil : others ≠ [] ↔ M ≠ [] := by
    have hfalse := hothers fun _ _ => False
    rw [not_iff_not, List.eq_nil_iff_forall_not_mem, List.eq_nil_iff_forall_not_mem]
    exact hfalse
  have hexists : (∃ q ∈ others, blockSize c.st q < x.size) ↔ ∃ z ∈ M, z.size < x.size := by
    have hall := hothers fun _ k => ¬ k < x.size
    rw [← not_iff_not]
    simpa only [not_exists, not_and] using hall
  unfold Config.ClearIfEnd ClearAtEnds
  rw [hothers fun _ k => x.size ≤ k, hothers fun _ k => k ≤ x.size, hnil, hexists]

/-! ## Over runs -/

/-- A request keeps the links out of the list null exactly if the part it splits off is clear. -/
theorem Abs.malloc_nullEnds (h : Abs c segs L) (hends : NullEnds c.st) (hn : n + 15 < 2 ^ 32)
    (hroom : NoWrap c.st (adjust n)) (hret : mmMalloc c.st n = some (s', p)) :
    NullEnds s' ↔ LinksClear c (.malloc n) := by
  by_cases hpos : n = 0
  · have hsame : mmMalloc c.st n = some (c.st, NULL) := by simp [mmMalloc, hpos]
    obtain ⟨rfl, -⟩ := Prod.mk.inj (Option.some.inj (hsame.symm.trans hret))
    exact iff_of_true hends fun hne => absurd hpos hne
  rcases fitsFreeList_eq h.rep (adjust n) with ⟨hfits, f, hchoose, hbest⟩ | ⟨hfits, -⟩
  · obtain ⟨L₁, L₂, rfl⟩ := List.append_of_mem hbest.mem
    rw [reuse_nullEnds h.rep hn hpos hfits hchoose hbest hends hret]
    have hsize : blockSize c.st f.ptr = f.size :=
      h.rep.blocks.blockSize_eq (h.rep.mem_segs hbest.mem) (h.rep.isBlock hbest.mem)
    obtain ⟨hamod, -, -, -⟩ := adjust_spec hn
    have hpmod := f.ptr_mod
    have hfmod := f.size_mod
    simp only [LinksClear, hfits, hchoose, hpos, Option.mem_some_iff, forall_eq', hsize, ne_eq,
      not_false_eq_true, forall_const]
    constructor
    · intro hall hle
      have hle' : adjust n + 16 ≤ f.size := hle
      let r : Seg := ⟨f.ptr + adjust n, f.size - adjust n, .raw, by omega, by omega,
        by change 8 ≤ f.size - adjust n; omega⟩
      refine (clearIfEnd_iff (x := r) fun P => h.forall_freed_ne_iff).mpr (hall r rfl ?_ ?_)
      · change f.size - adjust n + adjust n = f.size
        omega
      · change 16 ≤ f.size - adjust n
        omega
    · intro hclear r hptr hrsize h16
      have hr := hclear (by change adjust n + 16 ≤ f.size; omega)
      have hsub : f.size - adjust n = r.size := by omega
      rw [← hptr, hsub] at hr
      exact (clearIfEnd_iff fun P => h.forall_freed_ne_iff).mp hr
  · -- the list stays as it is
    have hclear : LinksClear c (.malloc n) := by
      intro _ hfits'
      rw [hfits] at hfits'
      cases hfits'
    refine iff_of_true ?_ hclear
    have hstart : c.st.memStartBrk + 16 ≤ c.st.memBrk := h.rep.blocks.tiles.le
    obtain ⟨hamod, hage, h16, halt⟩ := adjust_spec hn
    rcases memSbrk_spec (s := c.st) (by omega) hroom with hsbrk | ⟨hle, hsbrk⟩
    · have hsame : mmMalloc c.st n = some (c.st, NULL) := by simp [mmMalloc, hpos, hfits, hsbrk]
      obtain ⟨rfl, -⟩ := Prod.mk.inj (Option.some.inj (hsame.symm.trans hret))
      exact hends
    · have hmax := h.rep.blocks.max_lt
      have hne : c.st.memBrk ≠ minusOne := by
        unfold minusOne
        omega
      have hgrow := mmMalloc_of_sbrk hpos rfl hfits hsbrk (by omega) hle hmax hamod halt hne
      obtain ⟨rfl, -⟩ := Prod.mk.inj (Option.some.inj (hgrow.symm.trans hret))
      refine (h.rep.nullEnds_congr ?_ ?_ ?_ ?_ ?_).mpr hends
      · rfl
      · rfl
      · rfl
      · rfl
      · intro z hz a ha
        have hb := h.rep.blocks.bounds (h.rep.mem_segs hz)
        have h16' := (h.rep.isBlock hz).size_ge
        unfold Seg.LinkByte at ha
        exact growMem_apply (by omega) (by omega)

/-- A write inside a live payload changes no link of the list. -/
theorem Abs.write_nullEnds (h : Abs c segs L) {q a : ℕ} (hq : (q, n) ∈ c.live) (hlo : q ≤ a)
    (hhi : a < q + n) (v : UInt8) :
    NullEnds { c.st with mem := c.st.mem.store8 a v } ↔ NullEnds c.st := by
  obtain ⟨y, hy, hkind, rfl, hsize⟩ := h.payload hq
  refine h.rep.nullEnds_congr rfl rfl rfl rfl fun z hz b hb => Mem.store8_apply_of_ne ?_
  rintro rfl
  have hzy : y ≠ z := by
    rintro rfl
    have hfree := (h.rep.mem_list.mp hz).2
    rw [Seg.isFree_iff, hkind] at hfree
    cases hfree
  refine h.rep.blocks.not_extent hy (h.rep.mem_segs hz) hzy ?_
    (hb.extent (h.rep.isBlock hz).size_ge)
  have hb := h.rep.blocks.bounds hy
  unfold Seg.Extent
  omega

/-- A call in range keeps the links out of the list null exactly if the block it puts on the list is
clear. -/
theorem Abs.nullEnds_iff (h : Abs c segs L) (hends : NullEnds c.st) (hin : InRange c op)
    (hcall : Call c op c') : NullEnds c'.st ↔ LinksClear c op := by
  obtain ⟨hperm, hexec⟩ := hcall
  cases op with
  | malloc n =>
      obtain ⟨hsize, hroom⟩ := hin
      rcases hsize with hn | ⟨hn, hfull⟩
      · obtain ⟨d, p, -, -, hexec', hret, -⟩ := h.malloc hn hroom
        obtain rfl := Option.some.inj (hexec.symm.trans hexec')
        exact h.malloc_nullEnds hends hn hroom hret
      · rcases mmMalloc_wrapped h.rep hperm (by omega) hroom with ⟨-, -, hret⟩ | ⟨hnot, -⟩
        · have hsame : c.exec (.malloc n) = some c := by simp [Config.exec, hret]
          obtain rfl := Option.some.inj (hexec.symm.trans hsame)
          refine iff_of_true hends fun _ hfits => ?_
          rw [fitsFreeList_of_small h.rep (by
            rw [adjust_wrapped hperm (by omega)]
            split_ifs <;> omega)] at hfits
          cases hfits
        · exact absurd ⟨hn, hfull⟩ hnot
  | free p =>
      obtain ⟨⟨q, n⟩, hq, rfl⟩ := hperm
      obtain ⟨x, hx, hkind, rfl, -⟩ := h.payload hq
      obtain ⟨s', hret, hc'⟩ := Option.bind_eq_some_iff.mp hexec
      obtain rfl := Option.some.inj hc'
      refine (mmFree_nullEnds h.rep hx hkind hends hret).trans ?_
      change _ ↔ c.ClearIfEnd x.ptr (blockSize c.st x.ptr) c.freed
      rw [h.rep.blocks.blockSize_eq hx (by simp [Seg.IsBlock, hkind])]
      exact (clearIfEnd_iff fun P => h.forall_freed_iff_list).symm
  | write a v =>
      obtain ⟨⟨q, n⟩, hq, hlo, hhi⟩ := hperm
      obtain rfl := Option.some.inj hexec
      exact iff_of_true ((h.write_nullEnds hq hlo hhi v).mpr hends) trivial

/-- **When the free list ends in null links and the walk of `mm_check` ends.** In every run from
`mm_init` whose requests are all in range and that puts no block on the list with something else
than null in a word that becomes a link out of the list: the links out of the list are null, the
walk visits every free block exactly once and reports no allocated block; and one more call keeps
that exactly if it meets the condition. -/
theorem nullEnds_of_guarded (h₀ : c₀.Initial)
    (hrun : Runs (Guarded (fun c op => InRange c op ∧ LinksClear c op) Call) c₀ ops c) :
    NullEnds c.st ∧
    (∃ ps, checkFreeList c.st = some (ps, true) ∧ ps.Nodup ∧ ∀ p, p ∈ ps ↔ p ∈ c.freed) ∧
    ∀ op c', InRange c op → Call c op c' → (NullEnds c'.st ↔ LinksClear c op) := by
  have hinv : ∃ segs L, Abs c segs L ∧ NullEnds c.st := by
    refine hrun.invariant (I := fun c => ∃ segs L, Abs c segs L ∧ NullEnds c.st) ?_
      ⟨[], [], h₀.abs, fun hne => absurd h₀.abs.rep.list.root hne⟩
    rintro c op c' ⟨segs, L, habs, hends⟩ ⟨⟨hin, hclear⟩, hcall⟩
    obtain ⟨segs', L', habs', -⟩ := habs.of_call hin hcall
    exact ⟨segs', L', habs', (habs.nullEnds_iff hends hin hcall).mpr hclear⟩
  obtain ⟨segs, L, habs, hends⟩ := hinv
  refine ⟨hends, ⟨L.map Seg.ptr, checkFreeList_eq habs.rep hends, habs.rep.nodup_ptr, ?_⟩, ?_⟩
  · intro p
    rw [habs.rep.mem_map_ptr_iff, habs.freed]
  · exact fun op c' hin hcall => habs.nullEnds_iff hends hin hcall

/-- Two blocks are released from a heap of zeros. -/
theorem nullEnds_of_guarded_example : ∃ c₀ c, Config.boot 4096 (fun _ => 0) = some c₀ ∧
    Runs Call c₀ [.malloc 8, .malloc 24, .free 4128, .free 4112] c ∧ c.freed = [4112, 4128] ∧
    NullEnds c.st := by
  obtain ⟨c₀, c, hboot, hfreed, h₀, hrun⟩ := exists_calls
    (fun c op => InRange c op ∧ LinksClear c op) 4096 (fun _ => 0)
    [.malloc 8, .malloc 24, .free 4128, .free 4112] Config.freed [4112, 4128]
    (by decide) (by decide) (by decide +kernel)
  exact ⟨c₀, c, hboot, hrun.of_guarded, hfreed, (nullEnds_of_guarded h₀ hrun).1⟩

/-- A client writes 1 to the first byte of its payload and releases it: the next link of the only
free block is 1, and the walk of `mm_check` reads outside the heap. -/
theorem exists_not_nullEnds : ∃ c₀ c, Config.boot 4096 (fun _ => 0) = some c₀ ∧ c₀.Initial ∧
    Runs Call c₀ [.malloc 8, .write 4112 1, .free 4112] c ∧ ¬ NullEnds c.st ∧
    checkFreeList c.st = none := by
  obtain ⟨c₀, c, hboot, hobs, h₀, hrun⟩ := exists_calls (fun _ _ => True) 4096 (fun _ => 0)
    [.malloc 8, .write 4112 1, .free 4112]
    (fun c => [some c.st.freeListRoot, get c.st (nextPtr c.st.freeListEnd),
      get c.st (nextPtr 4112), getAlloc c.st (hdrp 1)])
    [some 4112, some 1, some 1, none] (by decide) (by decide) (by decide +kernel)
  simp only [List.cons.injEq, Option.some.injEq, and_true] at hobs
  obtain ⟨hroot, hnext, hnext', halloc⟩ := hobs
  refine ⟨c₀, c, hboot, h₀, hrun.of_guarded, fun hends => ?_, ?_⟩
  · have hnull := (hends (by rw [hroot]; decide)).1
    rw [hnext] at hnull
    exact absurd (Option.some.inj hnull) (by decide)
  · unfold checkFreeList
    rw [hroot]
    exact checkFreeListFuel_eq_none (by decide) hnext' (by decide) halloc _

end SystemsLabs.Malloclab
