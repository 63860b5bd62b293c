import SystemsLabs.Cachelab.Residency
import SystemsLabs.Lib.Scanf
import Mathlib.Algebra.BigOperators.Fin
import Mathlib.Data.List.DropRight

/-!
# The trace loop of the cache simulator (`main`)

`traceLoop` is the loop of `main`: it reads the trace with `fscanf` and calls `check_cache` once for
a load or a store and twice for a modification. On a well-formed trace it reads line by line
(`scanf_traceText`) and reaches the end of the file (`traceLoop_eq`). `accounting_iff` adds up what
it has counted then.

**Scope.** A well-formed trace has any white space between its fields, and addresses of 64 bits.
Opening the file and what `-v` prints are left out.
-/

namespace SystemsLabs.Cachelab

open Lib Scanf

/-! ## The loop -/

/-- The variables that `fscanf` stores to. -/
structure Vars where
  op : Char
  addr : BitVec 64
  size : ℤ

/-- `" %c %llx,%d\n"`. -/
def traceFormat : List Directive := [.space, .char, .space, .hex, .lit ',', .dec, .space]

/-- The values that `fscanf` has stored; the other variables keep theirs. -/
def Vars.store (v : Vars) : List Item → Vars
  | [.char op] => { v with op := op }
  | [.char op, .hex addr] => { v with op := op, addr := addr }
  | [.char op, .hex addr, .dec size] => ⟨op, addr, size⟩
  | _ => v

/-- How the loop ends. -/
inductive LoopEnd
  /-- At the end of the file. -/
  | eof (c : Sim)
  /-- `exit`, after a line that cannot be read. -/
  | exit (status : ℕ)
  /-- `check_cache` indexes an array out of bounds. -/
  | undefined

/-- The calls of `check_cache` for an operation. -/
def dispatch (g : Geometry) (c : Sim) (v : Vars) : Option Sim :=
  if v.op = 'L' ∨ v.op = 'S' then checkCache g c v.addr
  else if v.op = 'M' then (checkCache g c v.addr).bind fun c => checkCache g c v.addr
  else some c

/-- The loop of `main`. -/
def traceLoop (g : Geometry) : ℕ → List Char → Vars → Sim → Option LoopEnd
  | 0, _, _, _ => none
  | fuel + 1, traceFile, v, c =>
    let r := scanf traceFormat traceFile
    if r.count = Scanf.eof then some (.eof c)
    else
      let v := v.store r.items
      if v.op = 'I' then traceLoop g fuel r.rest v c
      else if r.count < 3 then some (.exit 1)
      else
        match dispatch g c v with
        | none => some .undefined
        | some c => traceLoop g fuel r.rest v c

/-! ## Traces -/

/-- The operations. -/
inductive Op
  | load
  | store
  | modify
  | instr
  deriving DecidableEq

/-- The letter of an operation. -/
def Op.char : Op → Char
  | .load => 'L'
  | .store => 'S'
  | .modify => 'M'
  | .instr => 'I'

/-- A line of a trace: an operation, a hexadecimal address and a size. White space may stand in
front of the operation and the address, and behind the size, where it includes the newline. -/
structure TraceLine where
  lead : List Char
  op : Op
  gap : List Char
  addrDigits : List Char
  sizeDigits : List Char
  trail : List Char
  lead_space : ∀ c ∈ lead, isSpace c = true
  gap_space : ∀ c ∈ gap, isSpace c = true
  trail_space : ∀ c ∈ trail, isSpace c = true
  addr_ne : addrDigits ≠ []
  addr_digit : ∀ c ∈ addrDigits, isDigit 16 c = true
  addr_lt : value 16 addrDigits < 2 ^ 64
  size_ne : sizeDigits ≠ []
  size_digit : ∀ c ∈ sizeDigits, isDigit 10 c = true
  size_lt : value 10 sizeDigits < 2 ^ 31

namespace TraceLine

/-- The address. -/
def addr (l : TraceLine) : BitVec 64 := BitVec.ofNat 64 (value 16 l.addrDigits)

/-- What the line looks like from the operation on. -/
def body (l : TraceLine) : List Char :=
  l.op.char :: (l.gap ++ (l.addrDigits ++ ',' :: (l.sizeDigits ++ l.trail)))

/-- The characters of the line. -/
def text (l : TraceLine) : List Char := l.lead ++ l.body

/-- The accesses that the line stands for. -/
def accesses (l : TraceLine) : List (BitVec 64) :=
  match l.op with
  | .load | .store => [l.addr]
  | .modify => [l.addr, l.addr]
  | .instr => []

end TraceLine

/-- The characters of a trace. -/
def traceText (ls : List TraceLine) : List Char := ls.flatMap TraceLine.text

/-- The accesses of a trace. -/
def accesses (ls : List TraceLine) : List (BitVec 64) := ls.flatMap TraceLine.accesses

/-- The number of lines with an operation. -/
def opCount (op : Op) (ls : List TraceLine) : ℕ := ls.countP fun l => l.op = op

variable {g : Geometry} {c : Sim} {l : TraceLine} {ls : List TraceLine} {s : List Char} {v : Vars}
  {addrs : List (BitVec 64)}

/-! ## Reading a line -/

/-- The letter of an operation ends white space and numbers. -/
theorem Op.char_stops (op : Op) (s : List Char) :
    Stops isSpace (op.char :: s) ∧ Stops (isDigit 10) (op.char :: s) := by
  cases op <;> exact ⟨fun c hc => Option.some.inj hc ▸ by decide,
    fun c hc => Option.some.inj hc ▸ by decide⟩

/-- A size ends where its digits end. -/
theorem stops_trail (l : TraceLine) (ls : List TraceLine) :
    Stops (isDigit 10) (l.trail ++ traceText ls) := by
  have hspace : ∀ c, isSpace c = true → isDigit 10 c = false := by
    intro c hc
    by_contra hdigit
    exact absurd (digit_cases (Bool.not_eq_false _ ▸ hdigit)).1 (by simp [hc])
  refine stops_append (fun c hc => hspace c (l.trail_space c hc)) ?_
  cases ls with
  | nil => exact fun c hc => nomatch hc
  | cons l' ls =>
    rw [traceText, List.flatMap_cons, TraceLine.text, List.append_assoc]
    refine stops_append (fun c hc => hspace c (l'.lead_space c hc)) ?_
    exact (l'.op.char_stops _).2

/-- **A line** is read whole, with the white space behind it. -/
theorem scanf_traceText (hs : s.dropWhile isSpace = (traceText (l :: ls)).dropWhile isSpace) :
    scanf traceFormat s = ⟨[.char l.op.char, .hex l.addr, .dec (value 10 l.sizeDigits)], none,
      (traceText ls).dropWhile isSpace⟩ := by
  -- what is left in front of each directive
  have htext : (traceText (l :: ls)).dropWhile isSpace = l.op.char :: (l.gap ++ (l.addrDigits ++
      ',' :: (l.sizeDigits ++ (l.trail ++ traceText ls)))) := by
    have happend : traceText (l :: ls) = l.lead ++ (l.op.char :: (l.gap ++ (l.addrDigits ++
        ',' :: (l.sizeDigits ++ (l.trail ++ traceText ls))))) := by
      simp [traceText, TraceLine.text, TraceLine.body]
    rw [happend, dropWhile_append l.lead_space (l.op.char_stops _).1]
  have hspace : ∀ s, (l.gap ++ (l.addrDigits ++ s)).dropWhile isSpace = l.addrDigits ++ s := by
    intro s
    obtain ⟨c, ds, hcons⟩ := List.exists_cons_of_ne_nil l.addr_ne
    rw [hcons, List.cons_append]
    exact dropWhile_digits l.gap_space (l.addr_digit c (hcons ▸ List.mem_cons_self))
  have hhex : ∀ s, Directive.hex.run (l.addrDigits ++ ',' :: s) =
      .ok ([.hex l.addr], ',' :: s) := by
    intro s
    have hcomma : ∀ p : Char → Bool, p ',' = false → Stops p (',' :: s) := by
      intro p hp c hc
      rwa [← Option.some.inj hc]
    have haddr : l.addr = strtoull false (value 16 l.addrDigits) :=
      (strtoull_of_lt l.addr_lt).symm
    rw [← List.nil_append (l.addrDigits ++ _), haddr]
    exact hex_run (by simp) l.addr_ne l.addr_digit (hcomma _ (by decide)) (hcomma _ (by decide))
  have hdec : Directive.dec.run (l.sizeDigits ++ (l.trail ++ traceText ls)) =
      .ok ([.dec (value 10 l.sizeDigits)], l.trail ++ traceText ls) := by
    rw [← List.nil_append (l.sizeDigits ++ _)]
    exact dec_run (by simp) l.size_ne l.size_digit (stops_trail l ls)
  unfold traceFormat
  rw [scanf_cons (space_run s), hs, htext, scanf_cons (char_run _ _), scanf_cons (space_run _),
    hspace, scanf_cons (hhex _), scanf_cons (lit_run _ _), scanf_cons hdec,
    scanf_cons (space_run _), List.dropWhile_append_of_pos l.trail_space]
  rfl

/-- At the end of the trace, `fscanf` returns `EOF`. -/
theorem scanf_nil (hs : s.dropWhile isSpace = (traceText []).dropWhile isSpace) :
    (scanf traceFormat s).count = Scanf.eof := by
  unfold traceFormat
  rw [scanf_cons (space_run s), hs]
  rfl

/-! ## Running the loop -/

/-- The accesses of the first line come first. -/
theorem accesses_cons (l : TraceLine) (ls : List TraceLine) :
    accesses (l :: ls) = l.accesses ++ accesses ls := List.flatMap_cons

/-- A data line is dispatched to the accesses that it stands for, and another line to none. -/
theorem exists_dispatch (hE : 1 ≤ g.assoc) (hbits : g.setBits + g.blockBits ≤ 31)
    (h : Runs (Access g) g.empty addrs c) (l : TraceLine) (size : ℤ) :
    ∃ c', dispatch g c ⟨l.op.char, l.addr, size⟩ = some c' ∧
      Runs (Access g) g.empty (addrs ++ l.accesses) c' := by
  have hacc : ∀ {addrs c}, Runs (Access g) g.empty addrs c → ∃ c', Access g c l.addr c' := by
    intro addrs c h
    obtain ⟨K, -, hres⟩ := Resides.of_runs hE hbits h
    exact hres.exists_access hbits l.addr
  obtain ⟨c₁, hone⟩ := hacc h
  have hrun := h.snoc hone
  unfold dispatch TraceLine.accesses
  cases l.op with
  | load => exact ⟨c₁, hone, hrun⟩
  | store => exact ⟨c₁, hone, hrun⟩
  | modify =>
    obtain ⟨c₂, htwo⟩ := hacc hrun
    have hrun₂ := hrun.snoc htwo
    rw [List.append_assoc] at hrun₂
    exact ⟨c₂, Option.bind_eq_some_iff.mpr ⟨c₁, hone, htwo⟩, hrun₂⟩
  | instr => exact ⟨c, rfl, by rwa [List.append_nil]⟩

/-- **The loop** on a trace: it reaches the end of the file, after the accesses of the trace. -/
theorem traceLoop_eq (hE : 1 ≤ g.assoc) (hbits : g.setBits + g.blockBits ≤ 31)
    (h : Runs (Access g) g.empty addrs c) (ls : List TraceLine) (v : Vars)
    (hs : s.dropWhile isSpace = (traceText ls).dropWhile isSpace) :
    ∃ c', Runs (Access g) g.empty (addrs ++ accesses ls) c' ∧
      ∀ n, ls.length < n → traceLoop g n s v c = some (.eof c') := by
  induction ls generalizing addrs c s v with
  | nil =>
    refine ⟨c, by rwa [accesses, List.flatMap_nil, List.append_nil], fun n hn => ?_⟩
    obtain ⟨n, rfl⟩ := Nat.exists_eq_add_one_of_ne_zero (Nat.ne_of_gt hn)
    rw [traceLoop, if_pos (scanf_nil hs)]
  | cons l ls ih =>
    have hscan := scanf_traceText hs
    obtain ⟨c₁, hdispatch, hrun⟩ := exists_dispatch hE hbits h l (value 10 l.sizeDigits)
    obtain ⟨c', hrun', hloop⟩ := ih hrun ⟨l.op.char, l.addr, value 10 l.sizeDigits⟩
      (List.dropWhile_idempotent isSpace (traceText ls))
    refine ⟨c', by rwa [accesses_cons, ← List.append_assoc], fun n hn => ?_⟩
    obtain ⟨n, rfl⟩ := Nat.exists_eq_add_one_of_ne_zero (Nat.ne_of_gt (Nat.zero_lt_of_lt hn))
    have hrest := hloop n (Nat.lt_of_succ_lt_succ hn)
    have hcount : Scan.count ⟨[.char l.op.char, .hex l.addr, .dec (value 10 l.sizeDigits)], none,
      (traceText ls).dropWhile isSpace⟩ = 3 := rfl
    rw [traceLoop, hscan]
    dsimp only [Vars.store]
    rw [hcount, if_neg (by decide)]
    by_cases hop : l.op.char = 'I'
    · -- an instruction is not dispatched
      have hsame : dispatch g c ⟨l.op.char, l.addr, value 10 l.sizeDigits⟩ = some c := by
        rw [hop]
        rfl
      obtain rfl := Option.some.inj (hsame.symm.trans hdispatch)
      rw [if_pos hop]
      exact hrest
    · rw [if_neg hop, if_neg (by decide), hdispatch]
      exact hrest

/-! ## What has been counted -/

/-- The number of valid lines of a set. -/
def validCount (lines : List Line) : ℕ := lines.countP Line.valid

/-- The number of valid lines in the cache. -/
def Sim.validLines (c : Sim) : ℕ := (c.sets.map validCount).sum

/-- The lines of a set that hold blocks are the valid ones. -/
theorem Holds.validCount_eq {i : ℕ} {lines : List Line} {S : Finset ℕ} (h : Holds g i lines S) :
    validCount lines = S.card := by
  obtain ⟨-, V, F, rfl, hF, hV, hnd, rfl⟩ := h
  have hzero : F.countP Line.valid = 0 := by
    rw [List.countP_eq_zero]
    intro l hl
    rw [hF l hl]
    exact Bool.false_ne_true
  rw [List.toFinset_card_of_nodup hnd, List.length_map, validCount, List.countP_append, hzero,
    Nat.add_zero, List.countP_eq_length]
  exact fun l hl => (hV l hl).1

/-- A valid line for each block that is resident. -/
theorem Resides.validLines_eq {K : Demand ℕ} (h : Resides g c K) :
    c.validLines = ∑ i ∈ Finset.range (2 ^ g.setBits), (K.sets i).card := by
  rw [Sim.validLines, ← h.length_eq, Finset.sum_range, ← Fin.sum_univ_fun_getElem]
  refine Finset.sum_congr rfl fun i _ => ?_
  exact (h.holds i _ (List.getElem?_eq_getElem i.isLt)).validCount_eq

/-- A load and a store are one access each, and a modification is two. -/
theorem length_accesses (ls : List TraceLine) :
    (accesses ls).length = opCount .load ls + opCount .store ls + 2 * opCount .modify ls := by
  induction ls with
  | nil => rfl
  | cons l ls ih =>
    rw [accesses_cons, List.length_append, ih]
    unfold opCount TraceLine.accesses
    simp only [List.countP_cons]
    cases l.op with
    | load => simp; omega
    | store => simp; omega
    | modify => simp; omega
    | instr => simp

/-- Instruction lines stand for no accesses. -/
theorem accesses_filter (ls : List TraceLine) :
    accesses (ls.filter fun l => l.op ≠ .instr) = accesses ls := by
  induction ls with
  | nil => rfl
  | cons l ls ih =>
    rw [accesses_cons, List.filter_cons]
    split_ifs with hop
    · rw [accesses_cons, ih]
    · have hnone : l.accesses = [] := by
        unfold TraceLine.accesses
        rw [show l.op = .instr by simpa using hop]
      rw [ih, hnone, List.nil_append]

/-- What the accounts say of a trace for a cache `c₀` to start with. The loop reaches the end of the
trace. Hits and misses are one for every load and store and two for every modification; the trace
without its instruction lines leads to the same cache and the same counts; the misses that were not
evictions are the valid lines; and no set has more of these than it has lines. -/
def Balances (g : Geometry) (c₀ : Sim) (ls : List TraceLine) (v : Vars) : Prop :=
  ∃ c, (∀ n, ls.length < n → traceLoop g n (traceText ls) v c₀ = some (.eof c)) ∧
    c.hits + c.misses = opCount .load ls + opCount .store ls + 2 * opCount .modify ls ∧
    (∀ n, ls.length < n →
      traceLoop g n (traceText (ls.filter fun l => l.op ≠ .instr)) v c₀ = some (.eof c)) ∧
    c.misses = c.evictions + c.validLines ∧
    ∀ lines ∈ c.sets, validCount lines ≤ g.assoc

/-- The accounts of every trace from the empty cache. -/
theorem balances_empty (hE : 1 ≤ g.assoc) (hbits : g.setBits + g.blockBits ≤ 31)
    (ls : List TraceLine) (v : Vars) : Balances g g.empty ls v := by
  obtain ⟨c, hrun, hloop⟩ := traceLoop_eq hE hbits (.nil g.empty) ls v rfl
  obtain ⟨c', hrun', hloop'⟩ := traceLoop_eq hE hbits (.nil g.empty)
    (ls.filter fun l => l.op ≠ .instr) v rfl
  rw [accesses_filter] at hrun'
  obtain rfl := hrun.unique (fun _ _ _ _ h h' => Option.some.inj (h.symm.trans h')) hrun'
  obtain ⟨K, hdemand, hres⟩ := Resides.of_runs hE hbits hrun
  have hinv := Demand.inv_of_runs (n := 2 ^ g.setBits)
    (fun b => Nat.mod_lt b (Nat.two_pow_pos g.setBits)) hdemand
  have hhits : c.hits = K.counts.hits := congrArg Counts.hits hres.counts_eq
  have hmisses : c.misses = K.counts.misses := congrArg Counts.misses hres.counts_eq
  have hevictions : c.evictions = K.counts.evictions := congrArg Counts.evictions hres.counts_eq
  refine ⟨c, hloop, ?_, fun n hn => hloop' n ?_, ?_, fun lines hmem => ?_⟩
  · rw [hhits, hmisses, hinv.hits_add_misses, List.length_map, List.nil_append, length_accesses]
  · exact Nat.lt_of_le_of_lt (List.length_filter_le _ _) hn
  · rw [hmisses, hevictions, hres.validLines_eq, hinv.misses_eq]
  · obtain ⟨i, hi⟩ := List.getElem?_of_mem hmem
    rw [(hres.holds i lines hi).validCount_eq]
    exact hinv.card_le i

/-- **The accounts** at the end of the loop. `main` builds a cache from which every trace balances,
if and only if an `int` holds the number of its lines. -/
theorem accounting_iff (hE : 1 ≤ g.assoc) (hbits : g.setBits + g.blockBits ≤ 31) :
    (∃ c₀, g.init = some c₀ ∧ ∀ ls v, Balances g c₀ ls v) ↔
      2 ^ g.setBits * g.assoc < 2 ^ 31 := by
  rw [← Geometry.exists_init_iff hE]
  constructor
  · rintro ⟨c₀, hinit, -⟩
    exact ⟨c₀, hinit⟩
  · rintro ⟨c₀, hinit⟩
    obtain ⟨-, rfl⟩ := (Geometry.init_eq_some_iff hE).mp hinit
    exact ⟨_, hinit, fun ls v => balances_empty hE hbits ls v⟩

/-- A line with a small address and a small size, as `valgrind` writes it. -/
def shortLine (op : Op) (a size : Char) (ha : isDigit 16 a = true)
    (hsize : isDigit 10 size = true) : TraceLine where
  lead := if op = .instr then [] else [' ']
  op := op
  gap := [' ']
  addrDigits := [a, '0']
  sizeDigits := [size]
  trail := ['\n']
  lead_space := by
    split_ifs
    · exact fun c hc => absurd hc List.not_mem_nil
    · exact List.forall_mem_singleton.mpr rfl
  gap_space := List.forall_mem_singleton.mpr rfl
  trail_space := List.forall_mem_singleton.mpr rfl
  addr_ne := List.cons_ne_nil _ _
  addr_digit := by simpa using ⟨ha, by decide⟩
  addr_lt := by
    have hlt : digitValue a < 16 := of_decide_eq_true ha
    have hvalue : value 16 [a, '0'] = 16 * digitValue a := by simp [value, digitValue]
    omega
  size_ne := List.cons_ne_nil _ _
  size_digit := by simpa using hsize
  size_lt := by
    have hlt : digitValue size < 10 := of_decide_eq_true hsize
    have hvalue : value 10 [size] = digitValue size := by simp [value]
    omega

/-- Three lines of `yi.trace`. -/
def shortTrace : List TraceLine :=
  [shortLine .instr '1' '1' (by decide) (by decide),
    shortLine .load '1' '1' (by decide) (by decide),
    shortLine .modify '2' '1' (by decide) (by decide)]

/-- The three lines: a load and the two accesses of a modification. -/
theorem accounting_iff_example :
    traceText shortTrace = "I 10,1\n L 10,1\n M 20,1\n".toList ∧
    ∃ c₀ c, Geometry.init ⟨4, 1, 4⟩ = some c₀ ∧
      traceLoop ⟨4, 1, 4⟩ 4 (traceText shortTrace) ⟨' ', 0, 0⟩ c₀ = some (.eof c) ∧
      c.hits + c.misses = 3 := by
  obtain ⟨c₀, hinit, hall⟩ :=
    (accounting_iff (g := ⟨4, 1, 4⟩) (by decide) (by decide)).mpr (by decide)
  obtain ⟨c, hloop, hcount, -⟩ := hall shortTrace ⟨' ', 0, 0⟩
  exact ⟨by decide, c₀, c, hinit, hloop 4 (by decide), hcount⟩

/-- With `-s 31` the number of sets does not fit an `int`, and `main` has no cache. -/
theorem exists_not_balances :
    ¬ ∃ c₀, Geometry.init ⟨31, 1, 0⟩ = some c₀ ∧ ∀ ls v, Balances ⟨31, 1, 0⟩ c₀ ls v := by
  rintro ⟨c₀, hinit, -⟩
  rw [Geometry.init_of_not_fits (by decide)] at hinit
  exact absurd hinit nofun

end SystemsLabs.Cachelab
