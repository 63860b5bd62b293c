import SystemsLabs.Malloclab.DriverAccepts
import SystemsLabs.Lib.Scanf

/-!
# Trace files (`read_trace`)

* `read_show` — a trace that is written out, with a header of four numbers and a line for each
  request, is read back.

**Scope.** The file is a list of characters: opening it, its path and `ferror` are left out.
`malloc` is a parameter, and so is what an uninitialised `size` holds (`junk`). The round trip is
about traces without negative numbers (`Trace.InRange`), as `showInt` writes none.
-/

namespace SystemsLabs.Malloclab

open SystemsLabs.Lib Scanf

/-! ## Reading -/

/-- `trace_t`, without the arrays of the driver. -/
structure Trace where
  suggHeapsize : ℤ
  numIds : ℤ
  numOps : ℤ
  weight : ℤ
  ops : List TraceOp
  deriving DecidableEq

/-- The local variables of `read_trace`, and the requests stored so far: `op_index` is their
number. -/
structure ReadVars where
  index : ℕ
  size : ℕ
  maxIndex : ℕ
  ops : List TraceOp

/-- The values that `fscanf` has stored; the other variables keep theirs. -/
def ReadVars.store (v : ReadVars) : List Item → ReadVars
  | [.dec index] => { v with index := toSize index }
  | [.dec index, .dec size] => { v with index := toSize index, size := toSize size }
  | _ => v

/-- `trace->ops[op_index++] = op`, in an array of `capacity` elements. -/
def ReadVars.write (capacity : ℕ) (v : ReadVars) (op : TraceOp) : Except Stop ReadVars :=
  if v.ops.length < capacity then .ok { v with ops := v.ops ++ [op] } else .error .undefined

/-- `MAXLINE`. -/
abbrev maxLine : ℕ := 1024

/-- Read the rest of the request of type `c`. The size of a release is never set: `junk` stands for
what is found in memory that nothing has been stored to. -/
def readRequest (capacity : ℕ) (junk : ℤ) (path : String) (c : Char) (v : ReadVars)
    (s : List Char) : Except Stop (ReadVars × List Char) :=
  if c = 'a' ∨ c = 'r' then do
    let r := scanf [.dec, .space, .dec] s
    let v := v.store r.items
    let v ← v.write capacity
      ⟨if c = 'a' then .alloc else .realloc, toInt v.index, toInt v.size⟩
    return ({ v with maxIndex := max v.maxIndex v.index }, r.rest)
  else if c = 'f' then do
    -- "%ud", which is "%u" and the letter 'd'
    let r := scanf [.dec, .lit 'd'] s
    let v := v.store r.items
    let v ← v.write capacity ⟨.free, toInt v.index, junk⟩
    return (v, r.rest)
  else .error (.exit ("Bogus type character (" ++ toString c ++ ") in tracefile " ++ path))

/-- The loop that reads every request line, cut off after `fuel` rounds. -/
def readRequests (capacity : ℕ) (junk : ℤ) (path : String) :
    ℕ → List Char → ReadVars → Except Stop ReadVars
  | 0, _, _ => .error .undefined
  | fuel + 1, s, v =>
    match Directive.str.run s with
    | .ok ([.str (c :: type)], s) =>
      -- the word has to fit into an array
      if maxLine ≤ (c :: type).length then .error .undefined
      else do
        let (v, s) ← readRequest capacity junk path c v s
        readRequests capacity junk path fuel s v
    | _ => .ok v

/-- `fscanf(tracefile, "%d", &x)`. -/
def readInt (junk : ℤ) (s : List Char) : ℤ × List Char :=
  let r := scanf [.dec] s
  (match r.items with
    | [.dec n] => n
    | _ => junk, r.rest)

/-- `malloc` of `n` elements of `size` bytes, or `unix_error`. -/
def allocate (malloc : ℕ → Bool) (n : ℤ) (size : ℕ) (msg : String) : Except Stop Unit :=
  if malloc (toSize n * size % 2 ^ 32) then .ok ()
  else .error (.exit (msg ++ ": Cannot allocate memory"))

/-- `read_trace`, on an open file. A number that does not fit its type is undefined in C; an
`unsigned` one is reduced here, and an `int` is kept. -/
def readTrace (malloc : ℕ → Bool) (junk : ℤ) (path : String) (tracefile : List Char) :
    Except Stop Trace := do
  -- read the trace file header
  let (suggHeapsize, s) := readInt junk tracefile
  let (numIds, s) := readInt junk s
  let (numOps, s) := readInt junk s
  let (weight, s) := readInt junk s
  allocate malloc numOps 12 "malloc 2 failed in read_trace"
  allocate malloc numIds 4 "malloc 3 failed in read_trace"
  allocate malloc numIds 4 "malloc 4 failed in read_trace"
  -- read every request line in the trace file
  let v ← readRequests (toSize numOps * 12 % 2 ^ 32 / 12) junk path (s.length + 1) s
    ⟨0, toSize junk, 0, []⟩
  if v.maxIndex ≠ toSize (numIds - 1) then throw .assertion
  if toSize numOps ≠ v.ops.length then throw .assertion
  return ⟨suggHeapsize, numIds, numOps, weight, v.ops⟩

/-! ## Writing -/

/-- A number, and a character behind it. -/
def showInt (n : ℤ) (c : Char) : List Char := Nat.toDigits 10 n.toNat ++ [c]

/-- The line of a request. -/
def TraceOp.show (op : TraceOp) : List Char :=
  match op.type with
  | .alloc => 'a' :: ' ' :: (showInt op.index ' ' ++ showInt op.size '\n')
  | .realloc => 'r' :: ' ' :: (showInt op.index ' ' ++ showInt op.size '\n')
  | .free => 'f' :: ' ' :: showInt op.index '\n'

/-- The file of a trace. -/
def Trace.show (t : Trace) : List Char :=
  showInt t.suggHeapsize '\n' ++ (showInt t.numIds '\n' ++ (showInt t.numOps '\n' ++
    (showInt t.weight '\n' ++ t.ops.flatMap TraceOp.show)))

variable {capacity n m : ℕ} {junk i k size : ℤ} {path : String} {c : Char} {s sp rest : List Char}
  {v v' : ReadVars} {op : TraceOp} {ops : List TraceOp} {malloc : ℕ → Bool} {t : Trace}
  {numIds limit : ℕ} {d : Driver}

/-! ## Numbers -/

/-- The decimal digits and their values. -/
theorem isDigit_of_char {x : Char} (h : x.isDigit = true) :
    isDigit 10 x = true ∧ digitValue x = x.toNat - 48 := by
  have hval : digitValue x = x.toNat - 48 := by
    unfold Char.isDigit at h
    rw [Bool.and_eq_true, decide_eq_true_iff, decide_eq_true_iff] at h
    exact if_pos h
  refine ⟨?_, hval⟩
  have hle : x.toNat ≤ 57 := by
    unfold Char.isDigit at h
    rw [Bool.and_eq_true, decide_eq_true_iff, decide_eq_true_iff] at h
    exact h.2
  unfold isDigit
  rw [hval, decide_eq_true_iff]
  omega

/-- A number is written with digits. -/
theorem isDigit_toDigits : ∀ x ∈ Nat.toDigits 10 n, isDigit 10 x = true := fun x hx =>
  (isDigit_of_char (Nat.isDigit_of_mem_toDigits (by decide) (by decide) hx)).1

/-- The digits of a number stand for it. -/
theorem value_toDigits (n : ℕ) : value 10 (Nat.toDigits 10 n) = n := by
  have hof := Nat.ofDigitChars_toDigits (b := 10) (n := n) (by decide) (by decide)
  rw [Nat.ofDigitChars_eq_foldl] at hof
  refine Eq.trans (List.foldl_ext _ _ _ fun a x hx => ?_) hof
  rw [(isDigit_of_char (Nat.isDigit_of_mem_toDigits (by decide) (by decide) hx)).2]
  rfl

/-- **Numbers** that are written are read back. -/
theorem dec_run_show (hsp : ∀ x ∈ sp, isSpace x = true) (hi : 0 ≤ i) (hc : isDigit 10 c = false)
    (s : List Char) : Directive.dec.run (sp ++ (showInt i c ++ s)) = .ok ([.dec i], c :: s) := by
  have hstops : Stops (isDigit 10) (c :: s) := fun x hx => Option.some.inj hx ▸ hc
  unfold showInt
  rw [List.append_assoc, List.singleton_append,
    dec_run hsp Nat.toDigits_ne_nil isDigit_toDigits hstops, value_toDigits, Int.toNat_of_nonneg hi]

/-- A blank is white space. -/
theorem blank : ∀ x ∈ [' '], isSpace x = true := fun _ hx => List.mem_singleton.mp hx ▸ rfl

/-- A newline is white space. -/
theorem lineEnd : ∀ x ∈ ['\n'], isSpace x = true := fun _ hx => List.mem_singleton.mp hx ▸ rfl

/-- A number that is written is read back. -/
theorem readInt_show (hsp : ∀ x ∈ sp, isSpace x = true) (hi : 0 ≤ i) (hc : isDigit 10 c = false)
    (s : List Char) : readInt junk (sp ++ (showInt i c ++ s)) = (i, c :: s) := by
  unfold readInt
  rw [scanf_cons (dec_run_show hsp hi hc s)]
  rfl

/-- A number that is not negative is the same as a `size_t` and back. -/
theorem toInt_toSize_eq (hi : 0 ≤ i) (hlt : i < 2 ^ 31) : toInt (toSize i) = i := by
  rw [toSize_eq hi hlt, toInt_toNat hi hlt]

/-- A 32-bit word is the same as an `int` and back. -/
theorem toSize_toInt (h : n < 2 ^ 32) : toSize (toInt n) = n := by
  unfold toSize toInt
  split_ifs <;> omega

/-- A `size_t` has 32 bits. -/
theorem toSize_lt (i : ℤ) : toSize i < 2 ^ 32 := by
  unfold toSize
  omega

/-! ## The loop -/

/-- What a request does to `max_index`. -/
def bump (m : ℕ) (op : TraceOp) : ℕ := if op.type = .free then m else max m (toSize op.index)

/-- Every id of a request for a block counts, and the maximum is one of them. -/
theorem foldl_bump (ops : List TraceOp) (m : ℕ) :
    m ≤ ops.foldl bump m ∧
      (∀ op ∈ ops, op.type ≠ .free → toSize op.index ≤ ops.foldl bump m) ∧
      (ops.foldl bump m = m ∨
        ∃ op ∈ ops, op.type ≠ .free ∧ toSize op.index = ops.foldl bump m) := by
  induction ops generalizing m with
  | nil => exact ⟨le_rfl, by simp, .inl rfl⟩
  | cons op ops ih =>
    obtain ⟨hle, hall, hex⟩ := ih (bump m op)
    have hm : m ≤ bump m op := by
      unfold bump
      split_ifs
      · exact le_rfl
      · exact le_max_left _ _
    rw [List.foldl_cons]
    refine ⟨hm.trans hle, ?_, ?_⟩
    · rintro op' (_ | ⟨_, hop'⟩) htype
      · have : toSize op.index ≤ bump m op := by
          rw [bump, if_neg htype]
          exact le_max_right _ _
        exact this.trans hle
      · exact hall op' hop' htype
    · rcases hex with heq | ⟨op', hop', htype, heq⟩
      · by_cases htype : op.type = .free
        · exact .inl (heq.trans (if_pos htype))
        · rw [bump, if_neg htype] at heq
          rcases max_cases m (toSize op.index) with ⟨hmax, -⟩ | ⟨hmax, -⟩
          · exact .inl (by rw [bump, if_neg htype, heq, hmax])
          · exact .inr ⟨op, List.mem_cons_self, htype, by rw [bump, if_neg htype, heq, hmax]⟩
      · exact .inr ⟨op', List.mem_cons_of_mem _ hop', htype, heq⟩

/-- The numbers of a request for a block. -/
theorem scanf_two (hi : 0 ≤ i) (hsize : 0 ≤ size) (s : List Char) :
    scanf [.dec, .space, .dec] (' ' :: (showInt i ' ' ++ showInt size '\n') ++ s) =
      ⟨[.dec i, .dec size], none, '\n' :: s⟩ := by
  have hfirst := dec_run_show blank hi (c := ' ') (by decide) (showInt size '\n' ++ s)
  have hsecond : Directive.dec.run (showInt size '\n' ++ s) = .ok ([.dec size], '\n' :: s) :=
    dec_run_show (List.forall_mem_nil _) hsize (by decide) s
  have hskip : Directive.space.run (' ' :: (showInt size '\n' ++ s)) =
      .ok ([], showInt size '\n' ++ s) := by
    unfold showInt
    rw [List.append_assoc]
    apply space_run_word Nat.toDigits_ne_nil _ blank
    intro x hx
    exact (digit_cases (isDigit_toDigits x hx)).1
  rw [List.cons_append, List.append_assoc]
  calc scanf [.dec, .space, .dec] ([' '] ++ (showInt i ' ' ++ (showInt size '\n' ++ s)))
      = (((scanf [] ('\n' :: s)).after [.dec size]).after []).after [.dec i] := by
        rw [scanf_cons hfirst, scanf_cons hskip, scanf_cons hsecond]
    _ = ⟨[.dec i, .dec size], none, '\n' :: s⟩ := rfl

/-- The number of a release: the letter `d` of the format never comes. -/
theorem scanf_one (hi : 0 ≤ i) (s : List Char) :
    scanf [.dec, .lit 'd'] (' ' :: showInt i '\n' ++ s) =
      ⟨[.dec i], some .matching, '\n' :: s⟩ := by
  rw [List.cons_append]
  calc scanf [.dec, .lit 'd'] ([' '] ++ (showInt i '\n' ++ s))
      = (scanf [.lit 'd'] ('\n' :: s)).after [.dec i] :=
        scanf_cons (dec_run_show blank hi (by decide) s)
    _ = ⟨[.dec i], some .matching, '\n' :: s⟩ := rfl

/-- What a request line may hold: the size of a release is whatever memory has there. -/
def TraceOp.Writable (junk : ℤ) (op : TraceOp) : Prop :=
  (0 ≤ op.index ∧ op.index < 2 ^ 31) ∧
    if op.type = .free then op.size = junk else 0 ≤ op.size ∧ op.size < 2 ^ 31

instance : Decidable (op.Writable junk) := by
  unfold TraceOp.Writable
  infer_instance

/-- An `a` or `r` line is read back. -/
theorem readRequest_block {type : OpType}
    (hc : c = 'a' ∧ type = .alloc ∨ c = 'r' ∧ type = .realloc) (hi : 0 ≤ i ∧ i < 2 ^ 31)
    (hsize : 0 ≤ size ∧ size < 2 ^ 31) (hroom : v.ops.length < capacity) (s : List Char) :
    readRequest capacity junk path c v (' ' :: (showInt i ' ' ++ showInt size '\n') ++ s) =
      .ok (⟨toSize i, toSize size, max v.maxIndex (toSize i), v.ops ++ [⟨type, i, size⟩]⟩,
        '\n' :: s) := by
  have hletter : c = 'a' ∨ c = 'r' := hc.imp And.left And.left
  have htype : (if c = 'a' then OpType.alloc else .realloc) = type := by
    rcases hc with ⟨rfl, rfl⟩ | ⟨rfl, rfl⟩ <;> rfl
  unfold readRequest ReadVars.write
  rw [if_pos hletter, scanf_two hi.1 hsize.1]
  dsimp only [ReadVars.store]
  rw [if_pos hroom, htype, toInt_toSize_eq hi.1 hi.2, toInt_toSize_eq hsize.1 hsize.2]
  rfl

/-- An `f` line is read back. -/
theorem readRequest_free (hi : 0 ≤ i ∧ i < 2 ^ 31) (hroom : v.ops.length < capacity)
    (s : List Char) : readRequest capacity junk path 'f' v (' ' :: showInt i '\n' ++ s) =
      .ok (⟨toSize i, v.size, v.maxIndex, v.ops ++ [⟨.free, i, junk⟩]⟩, '\n' :: s) := by
  unfold readRequest ReadVars.write
  rw [if_neg (by decide), if_pos rfl, scanf_one hi.1]
  dsimp only [ReadVars.store]
  rw [if_pos hroom, toInt_toSize_eq hi.1 hi.2]
  rfl

/-- **One request line** is read whole, but for the newline. -/
theorem readRequest_show (path : String) (hop : op.Writable junk) (hroom : v.ops.length < capacity)
    (s : List Char) : ∃ c s' v', op.show ++ s = c :: s' ∧ isSpace c = false ∧
      Stops (fun c => !isSpace c) s' ∧
      readRequest capacity junk path c v s' = .ok (v', '\n' :: s) ∧
      v'.ops = v.ops ++ [op] ∧ v'.maxIndex = bump v.maxIndex op := by
  obtain ⟨hi, hsize⟩ := hop
  have hstops : ∀ l : List Char, Stops (fun c => !isSpace c) (' ' :: l) := fun l x hx => by
    rw [← Option.some.inj hx]
    rfl
  obtain ⟨type, i, size⟩ := op
  cases type with
  | alloc =>
    exact ⟨'a', _, _, rfl, by decide, hstops _,
      readRequest_block (.inl ⟨rfl, rfl⟩) hi hsize hroom s, rfl, rfl⟩
  | realloc =>
    exact ⟨'r', _, _, rfl, by decide, hstops _,
      readRequest_block (.inr ⟨rfl, rfl⟩) hi hsize hroom s, rfl, rfl⟩
  | free =>
    obtain rfl : size = junk := hsize
    exact ⟨'f', _, _, rfl, by decide, hstops _, readRequest_free hi hroom s, rfl, rfl⟩

/-- **The loop** reads every request that has been written. -/
theorem readRequests_show (path : String) (hops : ∀ op ∈ ops, op.Writable junk)
    (hroom : v.ops.length + ops.length ≤ capacity) (hn : ops.length < n) :
    ∃ v', readRequests capacity junk path n ('\n' :: ops.flatMap TraceOp.show) v = .ok v' ∧
      v'.ops = v.ops ++ ops ∧ v'.maxIndex = ops.foldl bump v.maxIndex := by
  induction ops generalizing v n with
  | nil =>
    obtain ⟨n, rfl⟩ := Nat.exists_eq_succ_of_ne_zero hn.ne'
    exact ⟨v, rfl, (List.append_nil _).symm, rfl⟩
  | cons op ops ih =>
    rw [List.length_cons] at hroom hn
    obtain ⟨n, rfl⟩ := Nat.exists_eq_succ_of_ne_zero (Nat.ne_zero_of_lt hn)
    obtain ⟨c, s, v₁, hshow, hc, hstops, hread, hopsv, hmax⟩ := readRequest_show path
      (hops op List.mem_cons_self) (by omega : v.ops.length < capacity)
      (ops.flatMap TraceOp.show)
    have hword : Directive.str.run ('\n' :: (op :: ops).flatMap TraceOp.show) =
        .ok ([.str [c]], s) := by
      rw [List.flatMap_cons, hshow]
      calc Directive.str.run (['\n'] ++ c :: s) = Directive.str.run (c :: s) :=
            str_run_append lineEnd _
        _ = .ok ([.str [c]], s) :=
            str_run (List.cons_ne_nil _ _) (fun x hx => List.mem_singleton.mp hx ▸ hc) hstops
    obtain ⟨v₂, hrun, hops₂, hmax₂⟩ := ih (v := v₁) (n := n)
      (fun op hop => hops op (List.mem_cons_of_mem _ hop))
      (by rw [hopsv, List.length_append, List.length_singleton]; omega) (by omega)
    refine ⟨v₂, ?_, ?_, ?_⟩
    · rw [readRequests, hword]
      have hshort : ¬ maxLine ≤ [c].length := by
        rw [List.length_singleton]
        decide
      dsimp only
      rw [if_neg hshort, hread]
      exact hrun
    · rw [hops₂, hopsv, List.append_assoc]
      rfl
    · rw [hmax₂, hmax]
      rfl

/-! ## Whole files -/

/-- What a trace file has to hold: numbers that fit, as many requests as it says, and the largest id
that a block is requested for. -/
structure Trace.WellFormed (junk : ℤ) (t : Trace) : Prop where
  suggHeapsize : 0 ≤ t.suggHeapsize ∧ t.suggHeapsize < 2 ^ 31
  weight : 0 ≤ t.weight ∧ t.weight < 2 ^ 31
  numIds : 0 < t.numIds ∧ t.numIds < 2 ^ 31
  numOps : t.numOps = t.ops.length
  length_lt : t.ops.length * 12 < 2 ^ 32
  writable : ∀ op ∈ t.ops, op.Writable junk
  index_lt : ∀ op ∈ t.ops, op.type ≠ .free → op.index < t.numIds
  last : t.numIds = 1 ∨ ∃ op ∈ t.ops, op.type ≠ .free ∧ op.index = t.numIds - 1

/-- There is memory for the arrays of a trace. -/
def Trace.Allocatable (malloc : ℕ → Bool) (t : Trace) : Prop :=
  malloc (toSize t.numOps * 12 % 2 ^ 32) = true ∧ malloc (toSize t.numIds * 4 % 2 ^ 32) = true

/-- The largest index of a well-formed trace. -/
theorem Trace.WellFormed.maxIndex (h : t.WellFormed junk) :
    t.ops.foldl bump 0 = toSize (t.numIds - 1) := by
  obtain ⟨hpos, hlt⟩ := h.numIds
  have hsize : ∀ op ∈ t.ops, toSize op.index = op.index.toNat := fun op hop =>
    toSize_eq (h.writable op hop).1.1 (h.writable op hop).1.2
  obtain ⟨-, hall, hex⟩ := foldl_bump t.ops 0
  have hlast : toSize (t.numIds - 1) = (t.numIds - 1).toNat := toSize_eq (by omega) (by omega)
  rw [hlast]
  apply le_antisymm
  · rcases hex with hzero | ⟨op, hop, htype, heq⟩
    · rw [hzero]
      exact Nat.zero_le _
    · have := h.index_lt op hop htype
      rw [← heq, hsize op hop]
      omega
  · rcases h.last with hone | ⟨op, hop, htype, heq⟩
    · rw [hone]
      exact Nat.zero_le _
    · have := hall op hop htype
      rwa [hsize op hop, heq] at this

/-- The requests, behind the header. -/
theorem length_flatMap_show (ops : List TraceOp) :
    ops.length ≤ (ops.flatMap TraceOp.show).length := by
  induction ops with
  | nil => exact le_rfl
  | cons op ops ih =>
    have hpos : 0 < op.show.length := by
      unfold TraceOp.show
      split <;> exact Nat.succ_pos _
    rw [List.flatMap_cons, List.length_append, List.length_cons]
    omega

/-- There is memory. -/
theorem allocate_eq_ok {msg : String} {elem : ℕ} (h : malloc (toSize i * elem % 2 ^ 32) = true) :
    allocate malloc i elem msg = .ok () := if_pos h

/-- A well-formed trace that has been written to a file is read back. -/
theorem Trace.WellFormed.readTrace_show (ht : t.WellFormed junk) (hmalloc : t.Allocatable malloc)
    (path : String) : readTrace malloc junk path t.show = .ok t := by
  obtain ⟨hids, hlt⟩ := ht.numIds
  have hops : 0 ≤ t.numOps := ht.numOps ▸ Int.natCast_nonneg _
  have hcap : toSize t.numOps = t.ops.length := by
    have hlen := ht.length_lt
    rw [ht.numOps, toSize]
    omega
  have hroom : toSize t.numOps * 12 % 2 ^ 32 / 12 = t.ops.length := by
    have hlen := ht.length_lt
    rw [hcap, Nat.mod_eq_of_lt hlen, Nat.mul_div_cancel _ (by decide)]
  -- the header
  have h₁ : ∀ s, readInt junk (showInt t.suggHeapsize '\n' ++ s) = (t.suggHeapsize, '\n' :: s) :=
    readInt_show (List.forall_mem_nil _) ht.suggHeapsize.1 (by decide)
  have h₂ : ∀ s, readInt junk ('\n' :: (showInt t.numIds '\n' ++ s)) = (t.numIds, '\n' :: s) :=
    readInt_show lineEnd hids.le (by decide)
  have h₃ : ∀ s, readInt junk ('\n' :: (showInt t.numOps '\n' ++ s)) = (t.numOps, '\n' :: s) :=
    readInt_show lineEnd hops (by decide)
  have h₄ : ∀ s, readInt junk ('\n' :: (showInt t.weight '\n' ++ s)) = (t.weight, '\n' :: s) :=
    readInt_show lineEnd ht.weight.1 (by decide)
  -- the requests
  have hfits : (ReadVars.mk 0 (toSize junk) 0 []).ops.length + t.ops.length ≤ t.ops.length :=
    (Nat.zero_add _).le
  obtain ⟨v, hread, hvops, hvmax⟩ := readRequests_show path ht.writable hfits
    (Nat.lt_succ_of_le ((length_flatMap_show t.ops).trans (Nat.le_succ _)))
  rw [List.nil_append] at hvops
  rw [ht.maxIndex] at hvmax
  unfold readTrace Trace.show
  rw [h₁]
  dsimp only
  rw [h₂]
  dsimp only
  rw [h₃]
  dsimp only
  rw [h₄]
  dsimp only
  rw [allocate_eq_ok hmalloc.1, allocate_eq_ok hmalloc.2, allocate_eq_ok hmalloc.2, hroom]
  dsimp only [bind, Except.bind, pure, Except.pure]
  rw [List.length_cons, hread]
  dsimp only
  rw [if_neg (not_not.mpr hvmax), hcap, hvops]
  rw [if_neg (not_not.mpr rfl)]

/-! ## What has been read -/

/-- The values of an `int`. -/
def IsInt (i : ℤ) : Prop := -2 ^ 31 ≤ i ∧ i < 2 ^ 31

instance : Decidable (IsInt i) := inferInstanceAs (Decidable (_ ∧ _))

/-- What has been converted is an `int`. -/
theorem isInt_toInt (h : n < 2 ^ 32) : IsInt (toInt n) := by
  unfold IsInt toInt
  split_ifs <;> omega

/-- A small `size_t` comes from one `int` only. -/
theorem eq_of_toSize_eq (hi : IsInt i) (h : toSize i = n) (hlt : n < 2 ^ 31) : i = n := by
  obtain ⟨hlo, hhi⟩ := hi
  unfold toSize at h
  omega

/-- What holds of the variables in every round. -/
structure ReadVars.Ok (capacity : ℕ) (junk : ℤ) (v : ReadVars) : Prop where
  index_lt : v.index < 2 ^ 32
  size_lt : v.size < 2 ^ 32
  length_le : v.ops.length ≤ capacity
  maxIndex : v.maxIndex = v.ops.foldl bump 0
  ops : ∀ op ∈ v.ops, IsInt op.index ∧ if op.type = .free then op.size = junk else IsInt op.size

/-- `fscanf` changes nothing but the two numbers. -/
theorem ReadVars.Ok.store (h : v.Ok capacity junk) (items : List Item) :
    (v.store items).Ok capacity junk := by
  unfold ReadVars.store
  split
  · exact ⟨toSize_lt _, h.size_lt, h.length_le, h.maxIndex, h.ops⟩
  · exact ⟨toSize_lt _, toSize_lt _, h.length_le, h.maxIndex, h.ops⟩
  · exact h

/-- A request is written behind the others. -/
theorem ReadVars.Ok.write (h : v.Ok capacity junk) (hindex : op.index = toInt v.index)
    (hsize : if op.type = .free then op.size = junk else op.size = toInt v.size)
    (hw : v.write capacity op = .ok v') :
    v' = { v with ops := v.ops ++ [op] } ∧
      { v' with maxIndex := bump v.maxIndex op }.Ok capacity junk := by
  unfold ReadVars.write at hw
  split_ifs at hw with hroom
  obtain rfl := Except.ok.inj hw
  refine ⟨rfl, h.index_lt, h.size_lt, ?_, ?_, ?_⟩
  · rw [List.length_append, List.length_singleton]
    exact hroom
  · rw [List.foldl_append, h.maxIndex]
    rfl
  · intro op' hop'
    rcases List.mem_append.mp hop' with hop' | hop'
    · exact h.ops op' hop'
    · obtain rfl := List.mem_singleton.mp hop'
      refine ⟨hindex ▸ isInt_toInt h.index_lt, ?_⟩
      split_ifs at hsize ⊢
      · exact hsize
      · exact hsize ▸ isInt_toInt h.size_lt

/-- **One request.** -/
theorem ReadVars.Ok.readRequest (h : v.Ok capacity junk)
    (hread : Malloclab.readRequest capacity junk path c v s = .ok (v', rest)) :
    v'.Ok capacity junk ∧ rest.length ≤ s.length := by
  unfold Malloclab.readRequest at hread
  by_cases hblock : c = 'a' ∨ c = 'r'
  · rw [if_pos hblock] at hread
    have hv := h.store (scanf [.dec, .space, .dec] s).items
    obtain ⟨v₁, hw, hread⟩ := bind_eq_ok.mp hread
    obtain ⟨rfl, rfl⟩ := Prod.mk.inj (Except.ok.inj hread)
    have htype : (if c = 'a' then OpType.alloc else .realloc) ≠ .free := by
      split_ifs <;> decide
    obtain ⟨rfl, hok⟩ := hv.write rfl (by rw [if_neg htype]) hw
    refine ⟨?_, (scanf_sublist _ _).length_le⟩
    rw [bump, if_neg htype, toSize_toInt hv.index_lt] at hok
    exact hok
  · rw [if_neg hblock] at hread
    split_ifs at hread with hfree
    have hv := h.store (scanf [.dec, .lit 'd'] s).items
    obtain ⟨v₁, hw, hread⟩ := bind_eq_ok.mp hread
    obtain ⟨rfl, rfl⟩ := Prod.mk.inj (Except.ok.inj hread)
    obtain ⟨rfl, hok⟩ := hv.write rfl (by rw [if_pos rfl]) hw
    exact ⟨hok, (scanf_sublist _ _).length_le⟩

/-- **The loop.** -/
theorem ReadVars.Ok.readRequests (h : v.Ok capacity junk)
    (hread : Malloclab.readRequests capacity junk path n s v = .ok v') : v'.Ok capacity junk := by
  induction n generalizing s v with
  | zero => cases hread
  | succ n ih =>
    unfold Malloclab.readRequests at hread
    split at hread
    · split_ifs at hread
      obtain ⟨⟨v₁, s₁⟩, hone, hread⟩ := bind_eq_ok.mp hread
      exact ih (h.readRequest hone).1 hread
    · exact Except.ok.inj hread ▸ h

/-- A round takes at least one character, so the loop ends before the fuel does. -/
theorem readRequests_fuel (h : v.Ok capacity junk) (hn : s.length < n) (hm : s.length < m) :
    readRequests capacity junk path n s v = readRequests capacity junk path m s v := by
  induction n generalizing s v m with
  | zero => exact absurd hn (Nat.not_lt_zero _)
  | succ n ih =>
    obtain ⟨m, rfl⟩ := Nat.exists_eq_succ_of_ne_zero (Nat.ne_zero_of_lt hm)
    unfold readRequests
    split
    · next c type s₁ hword =>
      have hlt := str_run_length_lt hword
      split_ifs
      · rfl
      · cases hone : readRequest capacity junk path c v s₁ with
        | error e => rfl
        | ok r =>
          obtain ⟨hok, hle⟩ := h.readRequest hone
          exact ih hok (by omega) (by omega)
    · rfl

/-- There was memory. -/
theorem allocate_of_eq_ok {msg : String} {elem : ℕ} (h : allocate malloc i elem msg = .ok ()) :
    malloc (toSize i * elem % 2 ^ 32) = true := by
  unfold allocate at h
  split_ifs at h with hmalloc
  exact hmalloc

/-- What `read_trace` has checked. -/
theorem of_readTrace (h : readTrace malloc junk path s = .ok t) :
    t.Allocatable malloc ∧ toSize t.numOps = t.ops.length ∧ t.ops.length * 12 < 2 ^ 32 ∧
      t.ops.foldl bump 0 = toSize (t.numIds - 1) ∧
      ∀ op ∈ t.ops, IsInt op.index ∧
        if op.type = .free then op.size = junk else IsInt op.size := by
  unfold readTrace at h
  generalize readInt junk s = r₁ at h
  obtain ⟨suggHeapsize, s₁⟩ := r₁
  dsimp only at h
  generalize readInt junk s₁ = r₂ at h
  obtain ⟨numIds, s₂⟩ := r₂
  dsimp only at h
  generalize readInt junk s₂ = r₃ at h
  obtain ⟨numOps, s₃⟩ := r₃
  dsimp only at h
  generalize readInt junk s₃ = r₄ at h
  obtain ⟨weight, s₄⟩ := r₄
  dsimp only at h
  obtain ⟨_, ha₁, h⟩ := bind_eq_ok.mp h
  obtain ⟨_, ha₂, h⟩ := bind_eq_ok.mp h
  obtain ⟨_, ha₃, h⟩ := bind_eq_ok.mp h
  obtain ⟨v, hread, h⟩ := bind_eq_ok.mp h
  have hv := ReadVars.Ok.readRequests (v := ⟨0, toSize junk, 0, []⟩)
    ⟨Nat.two_pow_pos 32, toSize_lt _, Nat.zero_le _, rfl, by simp⟩ hread
  split_ifs at h with hmax hnum hnum
  · cases h
  · cases h
  · cases h
  obtain rfl := Except.ok.inj h
  have hlen : toSize numOps = v.ops.length := not_not.mp hnum
  refine ⟨⟨allocate_of_eq_ok ha₁, allocate_of_eq_ok ha₂⟩, hlen, ?_, ?_, hv.ops⟩
  · have := hv.length_le
    have := toSize_lt numOps
    dsimp only
    omega
  · exact hv.maxIndex ▸ not_not.mp hmax

/-- No number is negative, or too large for its type. -/
structure Trace.InRange (t : Trace) : Prop where
  suggHeapsize : 0 ≤ t.suggHeapsize ∧ t.suggHeapsize < 2 ^ 31
  weight : 0 ≤ t.weight ∧ t.weight < 2 ^ 31
  numIds : 0 < t.numIds ∧ t.numIds < 2 ^ 31
  numOps : IsInt t.numOps
  ops : ∀ op ∈ t.ops, 0 ≤ op.index ∧ (op.type ≠ .free → 0 ≤ op.size)

/-- What is read is well formed. -/
theorem Trace.InRange.wellFormed (ht : t.InRange) (h : readTrace malloc junk path s = .ok t) :
    t.WellFormed junk ∧ t.Allocatable malloc := by
  obtain ⟨hmalloc, hlen, hlt, hmax, hint⟩ := of_readTrace h
  have hwritable : ∀ op ∈ t.ops, op.Writable junk := by
    intro op hop
    obtain ⟨hindex, hsize⟩ := hint op hop
    obtain ⟨hi, hs⟩ := ht.ops op hop
    refine ⟨⟨hi, hindex.2⟩, ?_⟩
    split_ifs at hsize ⊢ with htype
    · exact hsize
    · exact ⟨hs htype, hsize.2⟩
  have hindex : ∀ op ∈ t.ops, toSize op.index = op.index.toNat := fun op hop =>
    toSize_eq (hwritable op hop).1.1 (hwritable op hop).1.2
  obtain ⟨hpos, hids⟩ := ht.numIds
  have hlast : toSize (t.numIds - 1) = (t.numIds - 1).toNat := toSize_eq (by omega) (by omega)
  obtain ⟨-, hall, hex⟩ := foldl_bump t.ops 0
  rw [hmax, hlast] at hall hex
  refine ⟨⟨ht.suggHeapsize, ht.weight, ht.numIds, ?_, hlt, hwritable, ?_, ?_⟩, hmalloc⟩
  · exact eq_of_toSize_eq ht.numOps hlen (by omega)
  · intro op hop htype
    have := hall op hop htype
    rw [hindex op hop] at this
    omega
  · rcases hex with hzero | ⟨op, hop, htype, heq⟩
    · exact .inl (by omega)
    · refine .inr ⟨op, hop, htype, ?_⟩
      have := (ht.ops op hop).1
      rw [hindex op hop] at heq
      omega

/-- **Round trip.** Written to a file, a trace is read back if and only if it is well formed and
there is memory for its arrays; and any trace that has been read is read back. -/
theorem read_show (malloc : ℕ → Bool) (junk : ℤ) (path : String) (t : Trace) (ht : t.InRange) :
    (readTrace malloc junk path t.show = .ok t ↔ t.WellFormed junk ∧ t.Allocatable malloc) ∧
    ∀ s, readTrace malloc junk path s = .ok t → readTrace malloc junk path t.show = .ok t := by
  have hshow : t.WellFormed junk ∧ t.Allocatable malloc →
      readTrace malloc junk path t.show = .ok t := by
    rintro ⟨hwf, hmalloc⟩
    exact hwf.readTrace_show hmalloc path
  refine ⟨⟨ht.wellFormed, hshow⟩, ?_⟩
  intro s hread
  exact hshow (ht.wellFormed hread)

/-- The last number of the file has no newline behind it, and the id of the release is too large. -/
theorem read_show_example : readTrace (fun _ => true) 0 "short.rep"
    (Trace.show ⟨20, 2, 3, 1, [⟨.alloc, 0, 16⟩, ⟨.realloc, 1, 8⟩, ⟨.free, 7, 0⟩]⟩) =
      .ok ⟨20, 2, 3, 1, [⟨.alloc, 0, 16⟩, ⟨.realloc, 1, 8⟩, ⟨.free, 7, 0⟩]⟩ := by
  refine (read_show (fun _ => true) 0 "short.rep" _ ?_).2
    "20 2 3 1\na 0 16 realloc 1 8\nf 7".toList ?_
  · exact ⟨by decide, by decide, by decide, by decide, by decide⟩
  · decide

end SystemsLabs.Malloclab
