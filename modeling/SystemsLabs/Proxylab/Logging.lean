import SystemsLabs.Lib.Appending
import SystemsLabs.Lib.Threads
import SystemsLabs.Proxylab.Buffers

/-!
# The log of the proxy (`proxy.log`)

Every request thread that comes to its end takes `log_lock`, formats an entry, opens the log for
appending, writes the entry, and closes the file. The entry is buffered: its bytes reach the file in
pieces, at the latest when the file is closed.

The threads are writers of `Lib.Appending` (`step_appending`), so the log consists of whole entries
(`log_entries`): whatever the order of the steps, it has one entry for every thread that has written
its own.

Only threads whose entry fits into `logstring` come to `fopen`, and opening, writing and closing the
log succeed.
-/

namespace SystemsLabs.Proxylab

open Lib

/-! ## The end of `doit` -/

/-- What `format_log_entry` is called with in a thread, and the time. -/
structure LogRequest where
  timeStr : List UInt8
  clientaddr : SockaddrIn
  uri : List UInt8
  size : ℤ

/-- The entry of a request. -/
def LogRequest.entry (r : LogRequest) : List UInt8 :=
  logEntry r.timeStr r.clientaddr r.uri r.size

/-- What the threads share: the owner of `log_lock`, and the file. -/
structure LogShared (ι : Type*) where
  logLock : Option ι
  file : List UInt8

/-- What a thread does next. -/
inductive LogPc
  | lock
  | format
  | fopen
  | fwrite
  /-- So much of the entry has not been written to the file. -/
  | fclose (buffered : List UInt8)
  | unlock
  | returned
  deriving DecidableEq

/-- The steps of a thread. -/
inductive LogAction
  | lock
  | format
  | fopen
  | fwrite
  /-- The buffer is written out: `write` accepts at most `k + 1` bytes. -/
  | write (k : ℕ)
  | fclose
  | unlock
  deriving DecidableEq

variable {ι : Type*} (r : ι → LogRequest)

/-- The end of `doit` in thread `i`. -/
def logThread (i : ι) (sh : LogShared ι) : LogPc → LogAction → Option (LogShared ι × LogPc)
  | .lock, .lock =>
    if sh.logLock.isNone then some ({ sh with logLock := some i }, .format) else none
  | .format, .format =>
    -- a longer entry overruns `logstring`
    if (r i).entry.length < maxline then some (sh, .fopen) else none
  | .fopen, .fopen => some (sh, .fwrite)
  | .fwrite, .fwrite => some (sh, .fclose (r i).entry)
  | .fclose buffered, .write k =>
    some ({ sh with file := sh.file ++ buffered.take (k + 1) }, .fclose (buffered.drop (k + 1)))
  | .fclose buffered, .fclose => if buffered = [] then some (sh, .unlock) else none
  | .unlock, .unlock => some ({ sh with logLock := none }, .returned)
  | _, _ => none

/-- The entry is in the file. -/
def LogPc.Logged : LogPc → Prop
  | .fclose buffered => buffered = []
  | .unlock | .returned => True
  | .lock | .format | .fopen | .fwrite => False

/-- Between `Pthread_mutex_lock` and `Pthread_mutex_unlock`. -/
def LogPc.Critical : LogPc → Prop
  | .format | .fopen | .fwrite | .fclose _ | .unlock => True
  | .lock | .returned => False

/-! ## A thread is a writer -/

/-- Where a writer is that appends this entry. -/
def LogPc.phase (entry : List UInt8) : LogPc → Phase UInt8
  | .lock => .waiting
  | .format | .fopen | .fwrite => .writing entry
  | .fclose buffered => .writing buffered
  | .unlock => .writing []
  | .returned => .done

/-- The threads as writers. -/
def appending (c : Threads ι (LogShared ι) LogPc) : Appending ι UInt8 :=
  ⟨c.shared.logLock, c.shared.file, fun i => (c.locals i).phase (r i).entry⟩

variable {r} [DecidableEq ι] {c c' : Threads ι (LogShared ι) LogPc} {i : ι}
  {es : List (ι × LogAction)} {e : ι × LogAction}

/-- **Simulation.** -/
theorem step_appending (h : Threads.Step (logThread r) c e c') :
    Appending.Step (fun i => (r i).entry) (appending r c) e.1 (appending r c') := by
  obtain ⟨i, a⟩ := e
  obtain ⟨pc, heq, hlocals⟩ := Threads.step_cases h
  have hself : (appending r c').phase i = pc.phase (r i).entry := by
    change (c'.locals i).phase _ = _
    rw [hlocals, Function.update_self]
  have hothers : (appending r c).Others i (appending r c') := by
    intro j hji
    change (c'.locals j).phase _ = (c.locals j).phase _
    rw [hlocals, Function.update_of_ne hji]
  have hphase : (appending r c).phase i = (c.locals i).phase (r i).entry := rfl
  generalize c.locals i = pc₀ at heq hphase
  have hstay : c.shared = c'.shared → pc.phase (r i).entry = pc₀.phase (r i).entry →
      Appending.Step (fun i => (r i).entry) (appending r c) i (appending r c') := by
    intro hsh hsame
    exact .stutter (congrArg LogShared.logLock hsh.symm) (congrArg LogShared.file hsh.symm)
      ((hself.trans hsame).trans hphase.symm) hothers
  unfold logThread at heq
  split at heq
  · split_ifs at heq with hfree
    obtain ⟨hsh, rfl⟩ := Prod.mk.inj (Option.some.inj heq)
    have hlock : c'.shared.logLock = some i := hsh ▸ rfl
    have hfile : c'.shared.file = c.shared.file := hsh ▸ rfl
    exact .acquire (Option.isNone_iff_eq_none.mp hfree) hphase hlock hfile hself hothers
  · split_ifs at heq
    obtain ⟨hsh, rfl⟩ := Prod.mk.inj (Option.some.inj heq)
    exact hstay hsh rfl
  · obtain ⟨hsh, rfl⟩ := Prod.mk.inj (Option.some.inj heq)
    exact hstay hsh rfl
  · obtain ⟨hsh, rfl⟩ := Prod.mk.inj (Option.some.inj heq)
    exact hstay hsh rfl
  · next buffered k =>
    obtain ⟨hsh, rfl⟩ := Prod.mk.inj (Option.some.inj heq)
    have hlock : c'.shared.logLock = c.shared.logLock := hsh ▸ rfl
    have hfile : c'.shared.file = c.shared.file ++ buffered.take (k + 1) := hsh ▸ rfl
    exact .append (k + 1) hphase hlock hfile hself hothers
  · split_ifs at heq with hnil
    obtain ⟨hsh, rfl⟩ := Prod.mk.inj (Option.some.inj heq)
    rw [hnil] at hstay
    exact hstay hsh rfl
  · obtain ⟨hsh, rfl⟩ := Prod.mk.inj (Option.some.inj heq)
    have hlock : c'.shared.logLock = none := hsh ▸ rfl
    have hfile : c'.shared.file = c.shared.file := hsh ▸ rfl
    exact .release hphase hlock hfile hself hothers
  · cases heq

/-- The threads append their entries under a lock, and do nothing else to the file. -/
theorem runs_appending (h : Runs (Threads.Step (logThread r)) c es c') :
    ∃ is, Runs (Appending.Step fun i => (r i).entry) (appending r c) is (appending r c') := by
  induction h with
  | nil => exact ⟨[], .nil _⟩
  | snoc _ hstep ih =>
    obtain ⟨is, hrun⟩ := ih
    exact ⟨_, hrun.snoc (step_appending hstep)⟩

/-! ## Lines -/

/-- A number is written with digits and a minus sign. -/
theorem cases_of_mem_decimal {n : ℤ} {b : UInt8} (h : b ∈ decimal n) :
    b = 45 ∨ 48 ≤ b.toNat ∧ b.toNat ≤ 57 := by
  rcases List.mem_append.mp h with h | h
  · split_ifs at h
    · exact .inl (List.mem_singleton.mp h)
    · exact absurd h List.not_mem_nil
  · obtain ⟨d, hd, rfl⟩ := List.mem_map.mp h
    have hdigit := Nat.isDigit_of_mem_toDigits (by decide) (by decide) hd
    unfold Char.isDigit at hdigit
    rw [Bool.and_eq_true, decide_eq_true_iff, decide_eq_true_iff] at hdigit
    have hlo : 48 ≤ d.toNat := hdigit.1
    have hhi : d.toNat ≤ 57 := hdigit.2
    rw [UInt8.toNat_ofNat', Nat.mod_eq_of_lt (by omega)]
    exact .inr ⟨hlo, hhi⟩

/-- A control character is not part of a number. -/
theorem not_mem_decimal {b : UInt8} (hb : b.toNat < 45) (n : ℤ) : b ∉ decimal n := by
  intro h
  rcases cases_of_mem_decimal h with rfl | ⟨hlo, -⟩
  · exact absurd hb (by decide)
  · omega

/-- A control character in an entry is one of the time or of the URI. -/
theorem not_mem_logEntry {b : UInt8} (hb : b.toNat < 32) {timeStr uri : List UInt8}
    (htime : b ∉ timeStr) (huri : b ∉ uri) (sockaddr : SockaddrIn) (size : ℤ) :
    b ∉ timeStr ++ cbytes ": " ++ dotted sockaddr.sinAddr ++ cbytes " " ++ uri ++ cbytes " " ++
      decimal size := by
  have hne : ∀ c : UInt8, 32 ≤ c.toNat → b ≠ c := by
    rintro c hc rfl
    omega
  have hcolon : b ∉ cbytes ": " := by
    simp [cbytes, hne 58 (by decide), hne 32 (by decide)]
  have hspace : b ∉ cbytes " " := by
    simp [cbytes, hne 32 (by decide)]
  have hdot : b ∉ cbytes "." := by
    simp [cbytes, hne 46 (by decide)]
  have hdecimal := not_mem_decimal (show b.toNat < 45 by omega)
  unfold dotted
  simp only [List.mem_append, htime, huri, hcolon, hspace, hdot, hdecimal, or_self,
    not_false_eq_true]

/-- An entry is one line. -/
theorem LogRequest.exists_entry_eq {r : LogRequest} (htime : newline ∉ r.timeStr)
    (huri : newline ∉ r.uri) : ∃ body, r.entry = body ++ [newline] ∧ newline ∉ body :=
  ⟨_, rfl, not_mem_logEntry (by decide) htime huri _ _⟩

/-- What `doit` writes to the log is such an entry. -/
theorem writeLog_eq_ok {e : Env} {uri : CBuf maxline} {size : ℕ} {logstring : CBuf maxline}
    (htime : 0 ∉ e.timeStr) (h : writeLog e uri size = .ok logstring) :
    ∃ s, uri.string = some s ∧ logstring.string =
      some (LogRequest.mk e.timeStr e.args.clientaddr s (loggedSize size)).entry := by
  unfold writeLog at h
  obtain ⟨_, -, h⟩ := bind_eq_ok.mp h
  obtain ⟨text, hformat, h⟩ := bind_eq_ok.mp h
  obtain ⟨_, -, h⟩ := bind_eq_ok.mp h
  obtain ⟨_, -, h⟩ := bind_eq_ok.mp h
  obtain ⟨_, -, h⟩ := bind_eq_ok.mp h
  obtain ⟨_, -, h⟩ := bind_eq_ok.mp h
  obtain rfl := Except.ok.inj h
  rw [defined_eq_ok, formatLogEntry_eq] at hformat
  obtain ⟨s, hs, hputs⟩ := Option.bind_eq_some_iff.mp hformat
  have h0 : 0 ∉ logEntry e.timeStr e.args.clientaddr s (loggedSize size) := by
    unfold logEntry
    rw [List.mem_append, not_or]
    exact ⟨not_mem_logEntry (by decide) htime (CBuf.not_mem_of_string hs) _ _, by decide⟩
  refine ⟨s, hs, ?_⟩
  unfold LogRequest.entry
  dsimp only
  exact CBuf.string_puts hputs h0

/-- No entry is empty. -/
theorem LogRequest.entry_ne_nil (r : LogRequest) : r.entry ≠ [] := by
  unfold entry logEntry
  rw [← List.length_pos_iff]
  simp only [List.length_append]
  have : (cbytes "\n").length = 1 := by decide
  omega

/-- An entry has been written if the thread has logged. -/
theorem LogPc.written_phase {entry : List UInt8} (hne : entry ≠ []) (pc : LogPc) :
    (pc.phase entry).Written ↔ pc.Logged := by
  cases pc with
  | lock => exact Iff.rfl
  | format => exact iff_of_false hne id
  | fopen => exact iff_of_false hne id
  | fwrite => exact iff_of_false hne id
  | fclose buffered => exact Iff.rfl
  | unlock => exact iff_of_true rfl trivial
  | returned => exact Iff.rfl

/-- An entry is being written in the critical section. -/
theorem LogPc.writing_phase {entry : List UInt8} (pc : LogPc) :
    (∃ rest, pc.phase entry = .writing rest) ↔ pc.Critical := by
  cases pc with
  | lock => exact iff_of_false (fun ⟨_, h⟩ => nomatch h) id
  | format => exact iff_of_true ⟨_, rfl⟩ trivial
  | fopen => exact iff_of_true ⟨_, rfl⟩ trivial
  | fwrite => exact iff_of_true ⟨_, rfl⟩ trivial
  | fclose buffered => exact iff_of_true ⟨_, rfl⟩ trivial
  | unlock => exact iff_of_true ⟨_, rfl⟩ trivial
  | returned => exact iff_of_false (fun ⟨_, h⟩ => nomatch h) id

/-- A proper part of an entry that is one line has no newline. -/
theorem newline_not_mem_part {q : LogRequest} {part rest : List UInt8} (htime : newline ∉ q.timeStr)
    (huri : newline ∉ q.uri) (hne : rest ≠ []) (heq : part ++ rest = q.entry) :
    newline ∉ part := by
  -- the newline at the end of the entry is left
  obtain ⟨body, hbody, hnot⟩ := LogRequest.exists_entry_eq htime huri
  intro hmem
  rw [hbody] at heq
  obtain ⟨init, b, rfl⟩ := List.eq_nil_or_concat' rest |>.resolve_left hne
  rw [← List.append_assoc] at heq
  obtain ⟨rfl, -⟩ := List.append_inj' heq rfl
  exact hnot (List.mem_append_left _ hmem)

/-- Each entry is one line. -/
theorem count_flatMap_entry {κ : Type*} {r : κ → LogRequest}
    (hline : ∀ i, newline ∉ (r i).timeStr ∧ newline ∉ (r i).uri) (order : List κ) :
    (order.flatMap fun i => (r i).entry).count newline = order.length := by
  induction order with
  | nil => rfl
  | cons i order ih =>
    obtain ⟨body, hbody, hnot⟩ := LogRequest.exists_entry_eq (hline i).1 (hline i).2
    rw [List.flatMap_cons, List.count_append, ih, hbody, List.count_append,
      List.count_eq_zero_of_not_mem hnot, List.length_cons]
    simp only [List.count_singleton_self]
    omega

/-- **The log consists of whole entries**, one for each thread that has written its entry, and
perhaps a part of one more: what the thread that holds the lock has written of its own. No thread
leaves the lock behind. If the times and the URIs have no newline, each entry is one line. -/
theorem log_entries (r : ι → LogRequest) (old : List UInt8)
    (h : Runs (Threads.Step (logThread r)) ⟨⟨none, old⟩, fun _ => .lock⟩ es c) :
    (∀ i, c.shared.logLock = some i ↔ (c.locals i).Critical) ∧
    ∃ (order : List ι) (part : List UInt8), order.Nodup ∧
      (∀ i, i ∈ order ↔ (c.locals i).Logged) ∧
      c.shared.file = old ++ order.flatMap (fun i => (r i).entry) ++ part ∧
      (part = [] ∨ ∃ i rest, c.shared.logLock = some i ∧ rest ≠ [] ∧ part ++ rest = (r i).entry) ∧
      ((∀ i, newline ∉ (r i).timeStr ∧ newline ∉ (r i).uri) → newline ∉ part ∧
        c.shared.file.count newline = old.count newline + order.length) := by
  obtain ⟨is, hrun⟩ := runs_appending h
  obtain ⟨order, part, hinv⟩ := Appending.of_runs (fun i => (r i).entry_ne_nil) hrun
  have hpart : part = [] ∨
      ∃ i rest, c.shared.logLock = some i ∧ rest ≠ [] ∧ part ++ rest = (r i).entry := by
    rcases hinv.part with ⟨hnil, -⟩ | ⟨i, rest, hwriting, hne, heq⟩
    · exact .inl hnil
    · exact .inr ⟨i, rest, (hinv.owner i).mpr ⟨rest, hwriting⟩, hne, heq⟩
  refine ⟨fun i => (hinv.owner i).trans (LogPc.writing_phase _), order, part, hinv.nodup,
    fun i => (hinv.written i).trans (LogPc.written_phase (r i).entry_ne_nil _), hinv.file, hpart,
    fun hline => ?_⟩
  have hnewline : newline ∉ part := by
    rcases hpart with rfl | ⟨i, rest, -, hne, heq⟩
    · exact List.not_mem_nil
    · exact newline_not_mem_part (hline i).1 (hline i).2 hne heq
  have hfile : c.shared.file = _ := hinv.file
  refine ⟨hnewline, ?_⟩
  rw [hfile, List.count_append, List.count_append, count_flatMap_entry hline,
    List.count_eq_zero_of_not_mem hnewline, Nat.add_zero]

/-- Two requests. -/
def visit (i : Fin 2) : LogRequest :=
  ⟨cbytes "Thu 23 Oct 2014", ⟨0x0100007f#32, 0#16⟩,
    cbytes (if i.val = 0 then "http://a/" else "http://b/"), 20⟩

/-- A thread has written a part of its entry. -/
theorem log_entries_example : ∃ c,
    Runs (Threads.Step (logThread visit)) ⟨⟨none, []⟩, fun _ => .lock⟩
      [(0, .lock), (0, .format), (0, .fopen), (0, .fwrite), (0, .write 2)] c ∧
    (c.shared.logLock = some 0 ↔ (c.locals 0).Critical) ∧ (c.locals 0).Critical ∧
    ∃ (order : List (Fin 2)) (part : List UInt8),
      c.shared.file = [] ++ order.flatMap (fun i => (visit i).entry) ++ part := by
  obtain ⟨c, hrun, hpc⟩ := exists_runs_of_runIf (Threads.Step (logThread visit))
    (fun c => c.locals 0) _ (fun _ _ _ h => h)
    (show (runIf (fun _ _ => True) (Threads.next (logThread visit)) ⟨⟨none, []⟩, fun _ => .lock⟩
      [(0, .lock), (0, .format), (0, .fopen), (0, .fwrite), (0, .write 2)]).map
      (fun c => c.locals 0) = some (.fclose ((visit 0).entry.drop 3)) by decide +kernel)
  obtain ⟨hlock, order, part, -, -, hfile, -⟩ := log_entries visit [] hrun.of_guarded
  exact ⟨c, hrun.of_guarded, hlock 0, by rw [hpc]; trivial, order, part, hfile⟩

end SystemsLabs.Proxylab
