import SystemsLabs.Proxylab.Rio

/-!
# Reading lines when reads may fail

`Fd.deliveredTo` is what a descriptor delivers before a `read` fails or the stream ends.
`rioReadlineb_delivered` says what `rio_readlineb` makes of it, whatever the segmentation: it
returns the lines that are complete, and the rest of the stream at its end; a failure in front of
the end of a line loses the line. So it is with the blocks of `rio_readn` (`readnFrom_delivered`).
Whatever happens, the routines lose no byte and invent none (`rest_rioReadlineb`,
`pending_readnFrom`).

**Scope.** A routine stops at a `read` that fails; what comes behind it is left to the next call.
-/

namespace SystemsLabs.Proxylab

open Lib

/-! ## What is delivered -/

/-- The bytes that the next reads return before one of them fails or finds the end of the stream,
and whether one fails. The first read asks for `ask` bytes; `next` says for how many the reader asks
after it has asked and got some. -/
def deliveredFrom (next : ℕ → ℕ → ℕ) : ℕ → ℕ → Fd → List UInt8 × Bool
  | 0, _, _ => ([], false)
  | fuel + 1, ask, fd =>
    match fd.read ask with
    | none => ([], true)
    | some ([], _) => ([], false)
    | some (c :: bytes, fd) =>
      let r := deliveredFrom next fuel (next ask (bytes.length + 1)) fd
      (c :: bytes ++ r.1, r.2)

/-- What the descriptor delivers to a reader. Every read returns a byte, or is the last. -/
def Fd.deliveredTo (next : ℕ → ℕ → ℕ) (ask : ℕ) (fd : Fd) : List UInt8 × Bool :=
  deliveredFrom next (fd.pending.length + 1) ask fd

/-- A buffered reader asks for as much as its buffer holds. -/
def Fd.delivered (fd : Fd) : List UInt8 × Bool := fd.deliveredTo (fun _ _ => rioBufsize) rioBufsize

/-- A reader of blocks of `n` bytes asks for the rest of the block. -/
def nextBlock (n ask got : ℕ) : ℕ := if got < ask then ask - got else n

/-- What is delivered to a reader, with what it has buffered. -/
def Rio.delivered (rp : Rio) : List UInt8 × Bool :=
  (rp.unread ++ rp.fd.delivered.1, rp.fd.delivered.2)

variable {fd fd' : Fd} {rp rp' : Rio} {c : UInt8} {k n m fuel ask : ℕ} {bytes : List UInt8}
  {next : ℕ → ℕ → ℕ}

/-- An empty buffer delivers what the descriptor delivers. -/
@[simp] theorem delivered_rioReadinitb (fd : Fd) : (rioReadinitb fd).delivered = fd.delivered := rfl

/-- What is read has been pending. -/
theorem Fd.pending_read (h : fd.read n = some (bytes, fd')) :
    fd.pending = bytes ++ fd'.pending := by
  obtain ⟨k, -, heq⟩ := Option.map_eq_some_iff.mp h
  obtain ⟨rfl, rfl⟩ := Prod.mk.inj heq
  exact (List.take_append_drop _ _).symm

/-- Only the end of the stream gives no bytes. -/
theorem Fd.pending_read_nil (h : fd.read n = some ([], fd')) (hn : 0 < n) : fd.pending = [] := by
  obtain ⟨k, -, heq⟩ := Option.map_eq_some_iff.mp h
  refine (List.take_eq_nil_iff.mp (Prod.mk.inj heq).1).resolve_left ?_
  exact Nat.ne_of_gt (Nat.lt_min.mpr ⟨hn, Nat.succ_pos k⟩)

/-- A read gives at most as many bytes as it is asked for. -/
theorem Fd.length_read (h : fd.read n = some (bytes, fd')) : bytes.length ≤ n := by
  obtain ⟨k, -, heq⟩ := Option.map_eq_some_iff.mp h
  obtain ⟨rfl, rfl⟩ := Prod.mk.inj heq
  exact Nat.le_trans (List.length_take_le _ _) (Nat.min_le_left _ _)

/-- Enough fuel is as good as any. -/
theorem deliveredFrom_eq (h : fd.pending.length < fuel) :
    deliveredFrom next fuel ask fd = fd.deliveredTo next ask := by
  suffices heq : ∀ {fuel' : ℕ}, fd.pending.length < fuel' →
      deliveredFrom next fuel ask fd = deliveredFrom next fuel' ask fd from
    heq (Nat.lt_succ_self _)
  intro fuel' h'
  induction fuel generalizing fd fuel' ask with
  | zero => exact absurd h (Nat.not_lt_zero _)
  | succ fuel ih =>
    obtain ⟨fuel', rfl⟩ := Nat.exists_eq_add_one_of_ne_zero (Nat.ne_of_gt (Nat.zero_lt_of_lt h'))
    unfold deliveredFrom
    cases hread : fd.read ask with
    | none => rfl
    | some r =>
      obtain ⟨_ | ⟨c, bytes⟩, fd'⟩ := r
      · rfl
      · have hlen := congrArg List.length (Fd.pending_read hread)
        rw [List.length_append, List.length_cons] at hlen
        dsimp only
        rw [ih (by omega) (by omega : fd'.pending.length < fuel')]

/-- The first read fails. -/
theorem Fd.deliveredTo_of_read_eq_none (h : fd.read ask = none) :
    fd.deliveredTo next ask = ([], true) := by
  rw [deliveredTo, deliveredFrom, h]

/-- The first read meets the end of the stream. -/
theorem Fd.deliveredTo_of_read_nil (h : fd.read ask = some ([], fd')) :
    fd.deliveredTo next ask = ([], false) := by
  rw [deliveredTo, deliveredFrom, h]

/-- The first read gives some bytes, and the others follow. -/
theorem Fd.deliveredTo_of_read (h : fd.read ask = some (c :: bytes, fd')) :
    fd.deliveredTo next ask = (c :: bytes ++ (fd'.deliveredTo next (next ask (bytes.length + 1))).1,
      (fd'.deliveredTo next (next ask (bytes.length + 1))).2) := by
  have hlen := congrArg List.length (Fd.pending_read h)
  rw [List.length_append, List.length_cons] at hlen
  have hrest : deliveredFrom next fd.pending.length (next ask (bytes.length + 1)) fd' =
      fd'.deliveredTo next (next ask (bytes.length + 1)) := deliveredFrom_eq (by omega)
  rw [deliveredTo, deliveredFrom, h]
  dsimp only
  rw [hrest]

/-- Only what is pending is delivered. -/
theorem length_deliveredFrom (next : ℕ → ℕ → ℕ) (fuel ask : ℕ) (fd : Fd) :
    (deliveredFrom next fuel ask fd).1.length ≤ fd.pending.length := by
  induction fuel generalizing fd ask with
  | zero => exact Nat.zero_le _
  | succ fuel ih =>
    unfold deliveredFrom
    cases hread : fd.read ask with
    | none => exact Nat.zero_le _
    | some r =>
      obtain ⟨_ | ⟨c, bytes⟩, fd'⟩ := r
      · exact Nat.zero_le _
      · rw [Fd.pending_read hread, List.length_append, List.length_append]
        exact Nat.add_le_add_left (ih _ fd') _

/-- If no read fails, all that is pending is delivered. -/
theorem Fd.NoErrors.delivered (h : fd.NoErrors) : fd.delivered = (fd.pending, false) := by
  suffices heq : ∀ (n : ℕ) (fd : Fd), fd.NoErrors → fd.pending.length = n →
      fd.delivered = (fd.pending, false) from heq _ fd h rfl
  intro n
  induction n using Nat.strongRecOn with
  | _ n ih =>
    intro fd h hlen
    obtain ⟨bytes, fd', hread, hne, hpending, -, heof⟩ := h.read (n := rioBufsize) (by decide)
    cases bytes with
    | nil => rw [Fd.delivered, Fd.deliveredTo_of_read_nil hread, heof rfl]
    | cons c bytes =>
      have hlt : fd'.pending.length < n := by
        rw [← hlen, hpending, List.length_append, List.length_cons]
        omega
      have hrest := ih _ hlt fd' hne rfl
      rw [Fd.delivered] at hrest
      rw [Fd.delivered, Fd.deliveredTo_of_read hread, hrest, hpending]

/-- Not more is delivered than there is. -/
theorem Rio.length_delivered (rp : Rio) : rp.delivered.1.length ≤ rp.rest.length := by
  rw [delivered, rest, List.length_append, List.length_append]
  exact Nat.add_le_add_left (length_deliveredFrom _ _ _ _) _

/-! ## One byte -/

/-- A byte, the end of the stream, or a failure. -/
theorem rioRead_one_cases (rp : Rio) :
    (rp.delivered = ([], true) ∧ rioRead rp 1 = none) ∨
    (rp.delivered = ([], false) ∧ rp.rest = [] ∧
      ∃ rp', rioRead rp 1 = some ([], rp') ∧ rp'.rest = []) ∨
    ∃ c rp', rp.delivered = (c :: rp'.delivered.1, rp'.delivered.2) ∧ rp.rest = c :: rp'.rest ∧
      rioRead rp 1 = some ([c], rp') := by
  obtain ⟨fd, unread⟩ := rp
  cases unread with
  | cons c unread => exact .inr (.inr ⟨c, ⟨fd, unread⟩, rfl, rfl, rfl⟩)
  | nil =>
    unfold rioRead Rio.delivered Rio.rest
    cases hread : fd.read rioBufsize with
    | none => exact .inl ⟨by simp [Fd.delivered, Fd.deliveredTo_of_read_eq_none hread], rfl⟩
    | some r =>
      obtain ⟨_ | ⟨c, bytes⟩, fd'⟩ := r
      · have hnil := Fd.pending_read_nil hread (by decide)
        have hpending := Fd.pending_read hread
        rw [hnil] at hpending
        exact .inr (.inl ⟨by simp [Fd.delivered, Fd.deliveredTo_of_read_nil hread], hnil, _, rfl,
          hpending.symm⟩)
      · refine .inr (.inr ⟨c, ⟨fd', bytes⟩, ?_, Fd.pending_read hread, rfl⟩)
        dsimp only
        rw [List.nil_append, Fd.delivered, Fd.deliveredTo_of_read hread]
        rfl

/-! ## Lines -/

/-- One byte is taken from the stream. -/
theorem rest_rioRead_one (h : rioRead rp 1 = some (bytes, rp')) :
    rp.rest = bytes ++ rp'.rest ∧ (bytes = [] → rp.rest = []) := by
  rcases rioRead_one_cases rp with ⟨-, hread⟩ | ⟨-, hrest, rp₁, hread, hrest₁⟩ |
    ⟨c, rp₁, -, hrest, hread⟩
  · rw [hread] at h
    cases h
  · obtain ⟨rfl, rfl⟩ := Prod.mk.inj (Option.some.inj (hread.symm.trans h))
    exact ⟨hrest.trans hrest₁.symm, fun _ => hrest⟩
  · obtain ⟨rfl, rfl⟩ := Prod.mk.inj (Option.some.inj (hread.symm.trans h))
    exact ⟨hrest, fun hnil => nomatch hnil⟩

/-- A round of the loop of `rio_readlineb`, if this returns: the stream has ended, or the line, or
the loop goes on. -/
theorem readlineFrom_succ_cases (h : readlineFrom (k + 1) n rp = some (m, bytes, rp')) :
    (rioRead rp 1 = some ([], rp') ∧ (n = 1 ∧ m = 0 ∧ bytes = [] ∨ n ≠ 1 ∧ m = n ∧ bytes = [0])) ∨
    (∃ c t, rioRead rp 1 = some (c :: t, rp') ∧ m = n ∧ bytes = [c, 0]) ∨
    ∃ c t rp₁ bytes', rioRead rp 1 = some (c :: t, rp₁) ∧
      readlineFrom k (n + 1) rp₁ = some (m, bytes', rp') ∧ bytes = c :: bytes' := by
  unfold readlineFrom at h
  cases hread : rioRead rp 1 with
  | none =>
    rw [hread] at h
    cases h
  | some r =>
    obtain ⟨_ | ⟨c, t⟩, rp₁⟩ := r
    · rw [hread] at h
      by_cases hn : n = 1
      · obtain ⟨rfl, rfl, rfl⟩ : 0 = m ∧ [] = bytes ∧ rp₁ = rp' := by simpa [hn] using h
        exact .inl ⟨rfl, .inl ⟨hn, rfl, rfl⟩⟩
      · obtain ⟨rfl, rfl, rfl⟩ : n = m ∧ [0] = bytes ∧ rp₁ = rp' := by simpa [hn] using h
        exact .inl ⟨rfl, .inr ⟨hn, rfl, rfl⟩⟩
    · rw [hread] at h
      dsimp only at h
      split_ifs at h
      · obtain ⟨rfl, rfl, rfl⟩ : n = m ∧ [c, 0] = bytes ∧ rp₁ = rp' := by simpa using h
        exact .inr (.inl ⟨c, t, rfl, rfl, rfl⟩)
      · obtain ⟨⟨m', bytes', rp''⟩, hloop, heq⟩ := Option.map_eq_some_iff.mp h
        obtain ⟨rfl, rfl, rfl⟩ : m' = m ∧ c :: bytes' = bytes ∧ rp'' = rp' := by simpa using heq
        exact .inr (.inr ⟨c, t, rp₁, bytes', rfl, hloop, rfl⟩)

/-- The stream gets no longer. -/
theorem rest_readlineFrom (h : readlineFrom k n rp = some (m, bytes, rp')) :
    rp'.rest.length ≤ rp.rest.length := by
  induction k generalizing n rp m bytes with
  | zero =>
    obtain ⟨-, -, rfl⟩ : n = m ∧ [0] = bytes ∧ rp = rp' := by simpa [readlineFrom] using h
    exact Nat.le_refl _
  | succ k ih =>
    rcases readlineFrom_succ_cases h with ⟨hread, -⟩ | ⟨c, t, hread, -⟩ |
      ⟨c, t, rp₁, bytes', hread, hloop, -⟩
    · rw [(rest_rioRead_one hread).1]
      exact Nat.le_refl _
    · rw [(rest_rioRead_one hread).1, List.length_append]
      exact Nat.le_add_left _ _
    · rw [(rest_rioRead_one hread).1, List.length_append]
      exact Nat.le_add_left_of_le (ih hloop)

/-- A line that is not empty is stored with a zero byte. -/
theorem zero_mem_readlineFrom (h : readlineFrom k n rp = some (m, bytes, rp')) (hm : m ≠ 0) :
    0 ∈ bytes := by
  induction k generalizing n rp bytes with
  | zero =>
    obtain ⟨-, rfl, -⟩ : n = m ∧ [0] = bytes ∧ rp = rp' := by simpa [readlineFrom] using h
    exact List.mem_singleton_self 0
  | succ k ih =>
    rcases readlineFrom_succ_cases h with ⟨-, ⟨-, hzero, -⟩ | ⟨-, -, rfl⟩⟩ | ⟨c, t, -, -, rfl⟩ |
      ⟨c, t, rp₁, bytes', -, hloop, rfl⟩
    · exact absurd hzero hm
    · exact List.mem_singleton_self 0
    · exact List.mem_cons_of_mem c (List.mem_singleton_self 0)
    · exact List.mem_cons_of_mem c (ih hloop)

/-- `rio_readlineb` returns 0 at the end of the stream, or takes a part of it. -/
theorem rest_rioReadlineb (h : rioReadlineb rp maxline = some (m, bytes, rp')) :
    (m = 0 ∧ bytes = [] ∧ rp.rest = [] ∧ rp'.rest = []) ∨ rp'.rest.length < rp.rest.length := by
  rcases readlineFrom_succ_cases h with ⟨hread, ⟨-, hzero, hbytes⟩ | ⟨hne, -⟩⟩ | ⟨c, t, hread, -⟩ |
    ⟨c, t, rp₁, bytes', hread, hloop, -⟩
  · obtain ⟨hrest, hnil⟩ := rest_rioRead_one hread
    exact .inl ⟨hzero, hbytes, hnil rfl, hrest.symm.trans (hnil rfl)⟩
  · exact absurd rfl hne
  · rw [(rest_rioRead_one hread).1, List.length_append]
    exact .inr (Nat.lt_add_of_pos_left (Nat.succ_pos _))
  · rw [(rest_rioRead_one hread).1, List.length_append]
    have hlt := Nat.lt_add_of_pos_left (n := rp₁.rest.length) (Nat.succ_pos t.length)
    exact .inr (Nat.lt_of_le_of_lt (rest_readlineFrom hloop) hlt)

/-- The loop of `rio_readlineb` returns a line that is complete, or what is left of the stream. -/
theorem readlineFrom_delivered (rp : Rio) (hn : 0 < n) :
    (Complete newline k (takeLine newline k rp.delivered.1).1 → ∃ rp',
      readlineFrom k n rp = some (lineCount n (takeLine newline k rp.delivered.1).1,
        (takeLine newline k rp.delivered.1).1 ++ [0], rp') ∧
      rp'.delivered = ((takeLine newline k rp.delivered.1).2, rp.delivered.2)) ∧
    (¬ Complete newline k (takeLine newline k rp.delivered.1).1 →
      (rp.delivered.2 = true → readlineFrom k n rp = none) ∧
      (rp.delivered.2 = false → ∃ rp', rp'.rest = [] ∧ readlineFrom k n rp = some (
        if n = 1 ∧ rp.delivered.1 = [] then (0, [], rp')
        else (lineCount n rp.delivered.1, rp.delivered.1 ++ [0], rp')))) := by
  induction k generalizing n rp with
  | zero => exact ⟨fun _ => ⟨rp, by rw [takeLine_zero, lineCount_nil]; rfl, rfl⟩,
      fun h => absurd (.inr rfl) h⟩
  | succ k ih =>
    rcases rioRead_one_cases rp with ⟨hdel, hread⟩ | ⟨hdel, -, rp₁, hread, hrest₁⟩ |
      ⟨c, rp₁, hdel, -, hread⟩
    · rw [hdel, takeLine_nil]
      refine ⟨fun h => absurd h (not_complete_nil k.succ_pos), fun _ => ⟨fun _ => ?_,
        fun h => absurd h Bool.false_ne_true.symm⟩⟩
      rw [readlineFrom, hread]
    · rw [hdel, takeLine_nil]
      refine ⟨fun h => absurd h (not_complete_nil k.succ_pos), fun _ =>
        ⟨fun h => absurd h Bool.false_ne_true, fun _ => ⟨rp₁, hrest₁, ?_⟩⟩⟩
      rw [readlineFrom, hread, lineCount_nil]
      simp
    · rw [hdel, readlineFrom, hread, takeLine]
      dsimp only
      by_cases hc : c = newline
      · subst hc
        rw [if_pos rfl, if_pos rfl]
        exact ⟨fun _ => ⟨rp₁, by rw [lineCount_newline hn]; rfl, rfl⟩,
          fun h => absurd (.inl (terminated_singleton.mpr rfl)) h⟩
      · rw [if_neg hc, if_neg hc]
        dsimp only
        rw [complete_cons hc]
        obtain ⟨hcomplete, hcut⟩ := ih rp₁ (Nat.succ_pos n)
        refine ⟨fun h => ?_, fun h => ⟨fun hfail => ?_, fun hend => ?_⟩⟩
        · obtain ⟨rp', heq, hdel'⟩ := hcomplete h
          exact ⟨rp', by rw [heq, lineCount_succ hc hn]; rfl, hdel'⟩
        · rw [(hcut h).1 hfail]
          rfl
        · obtain ⟨rp', hrest', heq⟩ := (hcut h).2 hend
          have hn' : n ≠ 0 := Nat.ne_of_gt hn
          refine ⟨rp', hrest', ?_⟩
          rw [heq, lineCount_succ hc hn]
          simp [hn']

/-- **`rio_readlineb`** on what is delivered. -/
theorem rioReadlineb_delivered (rp : Rio) :
    (Complete newline (maxline - 1) (takeLine newline (maxline - 1) rp.delivered.1).1 → ∃ rp',
      rioReadlineb rp maxline = some (lineCount 1 (takeLine newline (maxline - 1) rp.delivered.1).1,
        (takeLine newline (maxline - 1) rp.delivered.1).1 ++ [0], rp') ∧
      rp'.delivered = ((takeLine newline (maxline - 1) rp.delivered.1).2, rp.delivered.2)) ∧
    (¬ Complete newline (maxline - 1) (takeLine newline (maxline - 1) rp.delivered.1).1 →
      (rp.delivered.2 = true → rioReadlineb rp maxline = none) ∧
      (rp.delivered.2 = false → ∃ rp', rp'.rest = [] ∧ rioReadlineb rp maxline = some (
        if rp.delivered.1 = [] then (0, [], rp')
        else (lineCount 1 rp.delivered.1, rp.delivered.1 ++ [0], rp')))) := by
  obtain ⟨hcomplete, hcut⟩ := readlineFrom_delivered (k := maxline - 1) rp Nat.one_pos
  refine ⟨hcomplete, fun h => ⟨(hcut h).1, fun hend => ?_⟩⟩
  obtain ⟨rp', hrest, heq⟩ := (hcut h).2 hend
  refine ⟨rp', hrest, ?_⟩
  rw [rioReadlineb, heq]
  simp only [true_and]

/-! ## Blocks -/

/-- **`rio_readn`** on what is delivered: it returns a block that is complete, or what is left of
the stream. -/
theorem readnFrom_delivered (n : ℕ) (fd : Fd) (hask : 0 < ask) (hfuel : ask ≤ fuel) :
    (ask ≤ (fd.deliveredTo (nextBlock n) ask).1.length → ∃ fd',
      readnFrom fuel fd ask = some ((fd.deliveredTo (nextBlock n) ask).1.take ask, fd') ∧
      fd'.deliveredTo (nextBlock n) n = ((fd.deliveredTo (nextBlock n) ask).1.drop ask,
        (fd.deliveredTo (nextBlock n) ask).2)) ∧
    ((fd.deliveredTo (nextBlock n) ask).1.length < ask →
      ((fd.deliveredTo (nextBlock n) ask).2 = true → readnFrom fuel fd ask = none) ∧
      ((fd.deliveredTo (nextBlock n) ask).2 = false → ∃ fd', fd'.pending = [] ∧
        readnFrom fuel fd ask = some ((fd.deliveredTo (nextBlock n) ask).1, fd'))) := by
  induction fuel generalizing fd ask with
  | zero => exact absurd hask (Nat.not_lt.mpr hfuel)
  | succ fuel ih =>
    have hask0 : ask ≠ 0 := Nat.ne_of_gt hask
    rw [readnFrom, if_neg hask0]
    cases hread : fd.read ask with
    | none =>
      rw [Fd.deliveredTo_of_read_eq_none hread]
      exact ⟨fun h => absurd hask (Nat.not_lt.mpr h), fun _ => ⟨fun _ => rfl,
        fun h => absurd h Bool.false_ne_true.symm⟩⟩
    | some r =>
      obtain ⟨_ | ⟨c, bytes⟩, fd₁⟩ := r
      · rw [Fd.deliveredTo_of_read_nil hread]
        have hnil := Fd.pending_read hread
        rw [Fd.pending_read_nil hread hask] at hnil
        exact ⟨fun h => absurd hask (Nat.not_lt.mpr h), fun _ =>
          ⟨fun h => absurd h Bool.false_ne_true, fun _ => ⟨fd₁, hnil.symm, rfl⟩⟩⟩
      · have hle : (c :: bytes).length ≤ ask := Fd.length_read hread
        rw [Fd.deliveredTo_of_read hread]
        dsimp only
        rcases Nat.lt_or_eq_of_le hle with hlt | heq
        · -- The block goes on.
          have hnext : nextBlock n ask (bytes.length + 1) = ask - (c :: bytes).length := if_pos hlt
          rw [hnext, List.length_append]
          obtain ⟨hfull, hshort⟩ := ih fd₁ (Nat.sub_pos_of_lt hlt)
            (by rw [List.length_cons]; omega)
          refine ⟨fun h => ?_, fun h => ⟨fun hfail => ?_, fun hend => ?_⟩⟩
          · obtain ⟨fd', hloop, hdel⟩ := hfull (Nat.sub_le_iff_le_add'.mpr h)
            refine ⟨fd', ?_, ?_⟩
            · rw [hloop, List.take_append, List.take_of_length_le hle]
              rfl
            · rw [hdel, List.drop_append, List.drop_of_length_le hle, List.nil_append]
          · rw [(hshort (by omega)).1 hfail]
            rfl
          · obtain ⟨fd', hnil, hloop⟩ := (hshort (by omega)).2 hend
            exact ⟨fd', hnil, by rw [hloop]; rfl⟩
        · -- The block is complete.
          have hnext : nextBlock n ask (bytes.length + 1) = n :=
            if_neg (Nat.not_lt.mpr (Nat.le_of_eq heq.symm))
          have hdone : readnFrom fuel fd₁ (ask - (c :: bytes).length) = some ([], fd₁) := by
            rw [heq, Nat.sub_self]
            cases fuel <;> rfl
          rw [hnext, hdone, ← heq, List.length_append]
          refine ⟨fun _ => ⟨fd₁, ?_, ?_⟩, fun h => absurd h (by omega)⟩
          · rw [List.take_left]
            simp
          · rw [List.drop_left]

/-- A round of the loop of `rio_readn`, if this returns: nothing is left to read, or the stream has
ended, or the loop goes on. -/
theorem readnFrom_succ_cases (h : readnFrom (fuel + 1) fd n = some (bytes, fd')) :
    (bytes = [] ∧ fd = fd') ∨ (fd.read n = some ([], fd') ∧ bytes = []) ∨
    ∃ first fd₁ rest, fd.read n = some (first, fd₁) ∧
      readnFrom fuel fd₁ (n - first.length) = some (rest, fd') ∧ bytes = first ++ rest := by
  unfold readnFrom at h
  split_ifs at h with hn
  · obtain ⟨rfl, rfl⟩ : [] = bytes ∧ fd = fd' := by simpa using h
    exact .inl ⟨rfl, rfl⟩
  · cases hread : fd.read n with
    | none =>
      rw [hread] at h
      cases h
    | some r =>
      obtain ⟨_ | ⟨c, first⟩, fd₁⟩ := r
      · rw [hread] at h
        obtain ⟨rfl, rfl⟩ : [] = bytes ∧ fd₁ = fd' := by simpa using h
        exact .inr (.inl ⟨rfl, rfl⟩)
      · rw [hread] at h
        obtain ⟨⟨rest, fd₂⟩, hloop, heq⟩ := Option.map_eq_some_iff.mp h
        obtain ⟨rfl, rfl⟩ := Prod.mk.inj heq
        exact .inr (.inr ⟨c :: first, fd₁, rest, rfl, hloop, rfl⟩)

/-- `rio_readn` loses nothing. -/
theorem pending_readnFrom (h : readnFrom fuel fd n = some (bytes, fd')) :
    fd.pending = bytes ++ fd'.pending := by
  induction fuel generalizing fd n bytes with
  | zero =>
    obtain ⟨rfl, rfl⟩ : [] = bytes ∧ fd = fd' := by simpa [readnFrom] using h
    rfl
  | succ fuel ih =>
    rcases readnFrom_succ_cases h with ⟨rfl, rfl⟩ | ⟨hread, rfl⟩ |
      ⟨first, fd₁, rest, hread, hloop, rfl⟩
    · rfl
    · exact Fd.pending_read hread
    · rw [Fd.pending_read hread, ih hloop, List.append_assoc]

/-- No more is stored than is asked for. -/
theorem length_readnFrom (h : readnFrom fuel fd n = some (bytes, fd')) : bytes.length ≤ n := by
  induction fuel generalizing fd n bytes with
  | zero =>
    obtain ⟨rfl, -⟩ : [] = bytes ∧ fd = fd' := by simpa [readnFrom] using h
    exact Nat.zero_le n
  | succ fuel ih =>
    rcases readnFrom_succ_cases h with ⟨rfl, -⟩ | ⟨-, rfl⟩ | ⟨first, fd₁, rest, hread, hloop, rfl⟩
    · exact Nat.zero_le n
    · exact Nat.zero_le n
    · have hfirst := Nat.add_sub_of_le (Fd.length_read hread)
      rw [List.length_append]
      exact Nat.le_trans (Nat.add_le_add_left (ih hloop) _) (Nat.le_of_eq hfirst)

end SystemsLabs.Proxylab
