import Zonix.Sched.Table
import Zonix.Drivers.Capacity

/-!
# The table that `ps` prints: `print_all_procs`

`print_all_procs` follows `proc_list` backwards, so that the oldest process comes first. The names
are no part of `Sched`, which no decision of the scheduler reads: `Named` is the system with the
`name` field of every task, and what `alloc_proc`, `idle_init` and `init_proc_init` write there.
-/

namespace Zonix
open Lib Lib.Format Cprintf

/-! ## The texts -/

/-- The two lines above the table. -/
def psTitle : Text :=
  ['P', 'I', 'D', ' ', ' ', 'S', 'T', 'A', 'T', ' ', ' ', 'P', 'P', 'I', 'D', ' ', ' ', 'K', 'S',
    'T', 'A', 'C', 'K', ' ', ' ', ' ', ' ', 'M', 'M', ' ', ' ', ' ', ' ', ' ', ' ', ' ', ' ', 'N',
    'A', 'M', 'E', '\n'].map ascii

def psRule : Text :=
  ['-', '-', '-', ' ', ' ', '-', '-', '-', '-', ' ', ' ', '-', '-', '-', '-', ' ', ' ', '-', '-',
    '-', '-', '-', '-', '-', '-', ' ', ' ', '-', '-', '-', '-', '-', '-', '-', '-', ' ', ' ', '-',
    '-', '-', '-', '-', '-', '-', '-', '-', '-', '-', '-', '-', '-', '-', '-', '\n'].map ascii

/-- `"%c%-3d %-4s  %-4d  %08x  %08x  %s\n"` -/
def psFormat : Text :=
  ['%', 'c', '%', '-', '3', 'd', ' ', '%', '-', '4', 's', ' ', ' ', '%', '-', '4', 'd', ' ', ' ',
    '%', '0', '8', 'x', ' ', ' ', '%', '0', '8', 'x', ' ', ' ', '%', 's', '\n'].map ascii

/-- `"\nTotal processes: %d\n"` -/
def totalFormat : Text :=
  ['\n', 'T', 'o', 't', 'a', 'l', ' ', 'p', 'r', 'o', 'c', 'e', 's', 's', 'e', 's', ':', ' ', '%',
    'd', '\n'].map ascii

/-- `"Current process: %s (PID %d)\n"` -/
def currentFormat : Text :=
  ['C', 'u', 'r', 'r', 'e', 'n', 't', ' ', 'p', 'r', 'o', 'c', 'e', 's', 's', ':', ' ', '%', 's',
    ' ', '(', 'P', 'I', 'D', ' ', '%', 'd', ')', '\n'].map ascii

def stateText : ProcState → Text
  | .uninit => [ascii 'U']
  | .sleeping => [ascii 'S']
  | .runnable => [ascii 'R']
  | .running => [ascii 'R', ascii '+']
  | .zombie => [ascii 'Z']

/-- `state_str(state)` -/
def stateStr (state : ProcState) : CString where
  chars := stateText state
  nonzero := by cases state <;> decide
  length_lt := by cases state <;> decide

/-- What `memset` leaves of a name. -/
def noName : CString where
  chars := []
  nonzero := by decide
  length_lt := by decide

def idleName : CString where
  chars := ['i', 'd', 'l', 'e'].map ascii
  nonzero := by decide
  length_lt := by decide

def initName : CString where
  chars := ['i', 'n', 'i', 't'].map ascii
  nonzero := by decide
  length_lt := by decide

/-! ## The names -/

/-- The system, and the `name` of the task at each address. -/
structure Named where
  sys : Sched
  name : ℕ → CString

namespace Named

variable {l l' : Named} {ram : Set ℕ} {procs : List ℕ} {fuel : ℕ} {mmAddr : ℕ → Word}

/-- `alloc_proc()` clears the name in the page that it gets. -/
def allocProc (l : Named) : Option (ℕ → CString) := do
  match ← l.sys.vm.allocPages 1 with
  | (some proc, _) => some (Function.update l.name proc noName)
  | (none, _) => some l.name

def exec (l : Named) : SchedOp → Option Named
  | .fork cloneFlags stack tf => do
    let name ← l.allocProc
    let (_, sys) ← l.sys.doFork cloneFlags stack tf
    some ⟨sys, name⟩
  | op => do
    let sys ← l.sys.exec op
    some ⟨sys, l.name⟩

def Callable (l : Named) (op : SchedOp) : Prop := l.sys.Callable op

/-- The calls that make a process. -/
def isFork : SchedOp → Bool
  | .fork _ _ _ => true
  | _ => false

/-- `idle_init()`, with the address of `user_stack` -/
def idleInit (l : Named) (userStack : Word) : Option Named := do
  let name ← l.allocProc
  let sys ← l.sys.idleInit userStack
  some ⟨sys, Function.update name sys.idleProc idleName⟩

/-- `init_proc_init()`, with the address of `init_main` -/
def initProcInit (l : Named) (initMain : Word) : Option Named := do
  let name ← l.allocProc
  let sys ← l.sys.initProcInit initMain
  let init ← sys.initProc
  some ⟨sys, Function.update name init initName⟩

/-- `sched_init()` -/
def schedInit (l : Named) (userStack initMain : Word) : Option Named := do
  let l ← Named.idleInit ⟨l.sys.setLink (Sched.initHeads l.sys.link), l.name⟩ userStack
  l.initProcInit initMain

/-- `sched_init` came back. -/
def Started (l : Named) (ram : Set ℕ) : Prop :=
  ∃ l₀ userStack initMain, l₀.sys.Booted ram ∧ schedInit l₀ userStack initMain = some l

/-! ## `print_all_procs` -/

/-- The number that stands for a process without a parent is -1. -/
def parentPid (l : Named) (proc : ℕ) : ℤ :=
  match (l.sys.task proc).parent with
  | some parent => (l.sys.task parent).pid
  | none => -1

/-- `proc->mm`, with the addresses of the `mm_struct`s -/
def mmPtr (l : Named) (mmAddr : ℕ → Word) (proc : ℕ) : Word :=
  match (l.sys.task proc).mm with
  | some mm => mmAddr mm
  | none => 0#32

def mark (l : Named) (proc : ℕ) : BitVec 8 :=
  if proc = l.sys.current then ascii '*' else ascii ' '

/-- One turn of the loop of `print_all_procs`. -/
def printProc (l : Named) (mmAddr : ℕ → Word) (fuel proc : ℕ) : Option Printed :=
  cprintf fuel psFormat [.int ((l.mark proc).signExtend 32),
    .int (BitVec.ofInt 32 (l.sys.task proc).pid), .str (stateStr (l.sys.task proc).state),
    .int (BitVec.ofInt 32 (l.parentPid proc)), .int (l.sys.task proc).kstack,
    .int (l.mmPtr mmAddr proc), .str (l.name proc)]

/-- `print_all_procs()` -/
def printAllProcs (l : Named) (mmAddr : ℕ → Word) (fuel : ℕ) : Option Text := do
  let title ← cprintf fuel psTitle []
  let rule ← cprintf fuel psRule []
  let rows ← listForEachPrev l.sys.link .procList le2procList (l.printProc mmAddr fuel)
    (l.sys.nrProcess.toNat + 1) .procList
  let total ← cprintf fuel totalFormat [.int (BitVec.ofInt 32 l.sys.nrProcess)]
  let current ← cprintf fuel currentFormat
    [.str (l.name l.sys.current), .int (BitVec.ofInt 32 (l.sys.task l.sys.current).pid)]
  some (title.1 ++ rule.1 ++ rows.flatMap Prod.fst ++ total.1 ++ current.1)

/-! ## What it should print -/

/-- The name that the process with the pid has. -/
def nameOf (pid : ℤ) : CString :=
  if pid = 0 then idleName else if pid = 1 then initName else noName

/-- A number in a column that it starts. -/
def intColumn (width : ℕ) (n : ℤ) : Text :=
  field true false width (Value.int n).sign (numeral 10 n.natAbs)

/-- An address in eight digits. -/
def hexColumn (v : Word) : Text := field false true 8 [] (numeral 16 v.toNat)

/-- The row of a process. -/
def row (l : Named) (mmAddr : ℕ → Word) (proc : ℕ) : Text :=
  let t := l.sys.task proc
  [l.mark proc] ++ intColumn 3 t.pid ++ [ascii ' '] ++ field true false 4 [] (stateText t.state) ++
    [ascii ' ', ascii ' '] ++ intColumn 4 (l.parentPid proc) ++ [ascii ' ', ascii ' '] ++
    hexColumn t.kstack ++ [ascii ' ', ascii ' '] ++ hexColumn (l.mmPtr mmAddr proc) ++
    [ascii ' ', ascii ' '] ++ (nameOf t.pid).chars ++ [ascii '\n']

def totalText : Text :=
  ['\n', 'T', 'o', 't', 'a', 'l', ' ', 'p', 'r', 'o', 'c', 'e', 's', 's', 'e', 's', ':',
    ' '].map ascii

/-- The line with the number of the rows. -/
def totalLine (n : ℕ) : Text := totalText ++ numeral 10 n ++ [ascii '\n']

def currentText : Text :=
  ['C', 'u', 'r', 'r', 'e', 'n', 't', ' ', 'p', 'r', 'o', 'c', 'e', 's', 's', ':', ' '].map ascii

/-- The line about the process that runs. -/
def currentLine (pid : ℕ) : Text :=
  currentText ++ (nameOf pid).chars ++ [' ', '(', 'P', 'I', 'D', ' '].map ascii ++
    numeral 10 pid ++ [')', '\n'].map ascii

/-! ## The text -/

theorem ascii_blank_ne : ascii ' ' ≠ ascii '%' ∧ ascii ' ' ≠ 0#8 := by decide

theorem ascii_newline_ne : ascii '\n' ≠ ascii '%' ∧ ascii '\n' ≠ 0#8 := by decide

theorem takes_d (left : Bool) (width : ℕ) (v : Word) :
    Takes ⟨left, false, width, false, .d⟩ (.int v) :=
  have hconv : Conv.d ≠ .s := by decide
  ⟨hconv, rfl⟩

theorem takes_hex (v : Word) : Takes ⟨false, true, 8, false, .x⟩ (.int v) := ⟨by decide, rfl⟩

theorem takes_s (left : Bool) (width : ℕ) (t : CString) :
    Takes ⟨left, false, width, false, .s⟩ (.str t) := rfl

/-- The format behind `%c`, with its arguments. -/
def columns (l : Named) (mmAddr : ℕ → Word) (proc : ℕ) : List Piece :=
  [.directive ⟨true, false, 3, false, .d⟩ (.int (BitVec.ofInt 32 (l.sys.task proc).pid))
      (takes_d _ _ _),
    .literal (ascii ' ') ascii_blank_ne,
    .directive ⟨true, false, 4, false, .s⟩ (.str (stateStr (l.sys.task proc).state))
      (takes_s _ _ _),
    .literal (ascii ' ') ascii_blank_ne, .literal (ascii ' ') ascii_blank_ne,
    .directive ⟨true, false, 4, false, .d⟩ (.int (BitVec.ofInt 32 (l.parentPid proc)))
      (takes_d _ _ _),
    .literal (ascii ' ') ascii_blank_ne, .literal (ascii ' ') ascii_blank_ne,
    .directive ⟨false, true, 8, false, .x⟩ (.int (l.sys.task proc).kstack) (takes_hex _),
    .literal (ascii ' ') ascii_blank_ne, .literal (ascii ' ') ascii_blank_ne,
    .directive ⟨false, true, 8, false, .x⟩ (.int (l.mmPtr mmAddr proc)) (takes_hex _),
    .literal (ascii ' ') ascii_blank_ne, .literal (ascii ' ') ascii_blank_ne,
    .directive ⟨false, false, 0, false, .s⟩ (.str (l.name proc)) (takes_s _ _ _),
    .literal (ascii '\n') ascii_newline_ne]

theorem mark_extend (l : Named) (proc : ℕ) :
    ((l.mark proc).signExtend 32).setWidth 8 = l.mark proc := by
  unfold mark
  split_ifs <;> decide

theorem printProc_eq (hfuel : 64 < fuel) (proc : ℕ) : l.printProc mmAddr fuel proc =
    some (l.mark proc :: (l.columns mmAddr proc).flatMap Piece.render, []) := by
  have hplain : ∀ q ∈ l.columns mmAddr proc, Plain q := by
    simp only [columns, List.forall_mem_cons, List.not_mem_nil, false_implies, implies_true,
      and_true, true_and, Plain]
    decide
  have hpieces := cprintf_pieces hfuel (l.columns mmAddr proc) []
  rw [List.flatMap_congr fun q hq => print_eq_render (hplain q hq)] at hpieces
  refine (cprintfFrom_char ((l.mark proc).signExtend 32)
    ((l.columns mmAddr proc).flatMap Piece.spell)).trans ?_
  rw [mark_extend]
  exact congrArg (Option.map fun r => (l.mark proc :: r.1, r.2)) hpieces

/-- `%d` of a number that an `int` can hold. -/
theorem intColumn_eq (width : ℕ) {n : ℤ} (hlow : -2 ^ 31 ≤ n) (hhigh : n < 2 ^ 31) :
    (⟨true, false, width, false, .d⟩ : Directive).render
      (value ⟨true, false, width, false, .d⟩ (.int (BitVec.ofInt 32 n))) = intColumn width n := by
  have hint : (BitVec.ofInt 32 n).toInt = n := by
    rw [BitVec.toInt_ofInt]
    apply Int.bmod_eq_of_le <;> omega
  show (⟨true, false, width, false, .d⟩ : Directive).render
    (.int (BitVec.ofInt 32 n).toInt) = _
  rw [hint]
  rfl

/-- `%08x` of an address. -/
theorem hexColumn_eq (v : Word) : (⟨false, true, 8, false, .x⟩ : Directive).render
    (value ⟨false, true, 8, false, .x⟩ (.int v)) = hexColumn v := by
  show field false true 8 (Value.int v.toNat).sign (numeral 16 (v.toNat : ℤ).natAbs) = _
  rw [Value.sign_natCast, Int.natAbs_natCast]
  rfl

theorem field_zero (body : Text) : field false false 0 [] body = body := by
  rw [field, Nat.zero_sub, pad_none, List.nil_append]

/-- The row of a process whose numbers are small, and whose name is the one of its pid. -/
theorem row_eq {proc : ℕ} (hpid : 0 ≤ (l.sys.task proc).pid ∧ (l.sys.task proc).pid < 2 ^ 31)
    (hparent : -1 ≤ l.parentPid proc ∧ l.parentPid proc < 2 ^ 31)
    (hname : l.name proc = nameOf (l.sys.task proc).pid) :
    l.mark proc :: (l.columns mmAddr proc).flatMap Piece.render = l.row mmAddr proc := by
  have hpidColumn := intColumn_eq 3 (n := (l.sys.task proc).pid) (by omega) hpid.2
  have hparentColumn := intColumn_eq 4 (n := l.parentPid proc) (by omega) hparent.2
  have hkstack := hexColumn_eq (l.sys.task proc).kstack
  have hmm := hexColumn_eq (l.mmPtr mmAddr proc)
  have hstate : (⟨true, false, 4, false, .s⟩ : Directive).render
      (value ⟨true, false, 4, false, .s⟩ (.str (stateStr (l.sys.task proc).state))) =
      field true false 4 [] (stateText (l.sys.task proc).state) := rfl
  have hnameColumn : (⟨false, false, 0, false, .s⟩ : Directive).render
      (value ⟨false, false, 0, false, .s⟩ (.str (l.name proc))) =
      (nameOf (l.sys.task proc).pid).chars := by
    rw [hname]
    exact field_zero _
  simp only [columns, List.flatMap_cons, List.flatMap_nil, Piece.render, hpidColumn, hparentColumn,
    hkstack, hmm, hstate, hnameColumn, row, List.append_assoc, List.cons_append, List.nil_append,
    List.append_nil]

/-- Literal text, and pieces behind it. -/
theorem cprintf_text (hfuel : 64 < fuel) {t : Text} (ht : ∀ c ∈ t, c ≠ ascii '%')
    {ps : List Piece} (hps : ∀ q ∈ ps, Plain q) :
    cprintf fuel (t ++ ps.flatMap Piece.spell) (ps.flatMap Piece.arg) =
      some (t ++ ps.flatMap Piece.render, []) := by
  have hpieces := cprintf_pieces hfuel ps []
  rw [List.flatMap_congr fun q hq => print_eq_render (hps q hq), List.append_nil] at hpieces
  show cprintfFrom fuel (t ++ ps.flatMap Piece.spell) start (ps.flatMap Piece.arg) = _
  induction t with
  | nil => exact hpieces
  | cons c t ih =>
    obtain ⟨hc, ht⟩ := List.forall_mem_cons.mp ht
    rw [List.cons_append, cprintfFrom_literal hc, ih ht]
    rfl

theorem render_pid {n : ℕ} (hn : n < 2 ^ 31) : (⟨false, false, 0, false, .d⟩ : Directive).render
    (value ⟨false, false, 0, false, .d⟩ (.int (BitVec.ofInt 32 n))) = numeral 10 n := by
  have hnat : (BitVec.ofInt 32 (n : ℤ)).toNat = n := by
    rw [BitVec.toNat_ofInt]
    omega
  have hrender := render_d (v := BitVec.ofInt 32 (n : ℤ)) (by omega) 0
  rw [hnat, field_zero] at hrender
  exact hrender

/-- `%d` of a pid, or of the number of the processes. -/
def pidPieces (n : ℤ) : List Piece :=
  [.directive ⟨false, false, 0, false, .d⟩ (.int (BitVec.ofInt 32 n)) (takes_d _ _ _)]

theorem plain_pid (n : ℤ) : ∀ q ∈ pidPieces n, Plain q := by
  simp only [pidPieces, List.forall_mem_cons, List.not_mem_nil, false_implies, implies_true,
    and_true, Plain]
  decide

theorem cprintf_total (hfuel : 64 < fuel) {n : ℕ} (hn : n < 2 ^ 31) :
    cprintf fuel totalFormat [.int (BitVec.ofInt 32 n)] = some (totalLine n, []) := by
  set ps : List Piece := pidPieces n ++ [.literal (ascii '\n') ascii_newline_ne] with hps
  have hplain : ∀ q ∈ ps, Plain q := by
    rw [hps, List.forall_mem_append]
    exact ⟨plain_pid n, by simp [Plain]⟩
  have htext := cprintf_text hfuel (t := totalText) (by decide) hplain
  have hrender : totalText ++ ps.flatMap Piece.render = totalLine n := by
    simp only [hps, pidPieces, List.flatMap_append, List.flatMap_cons, List.flatMap_nil,
      Piece.render, render_pid hn, totalLine, List.append_nil, List.append_assoc]
  rw [hrender] at htext
  exact htext

theorem cprintf_current (hfuel : 64 < fuel) {n : ℕ} (hn : n < 2 ^ 31) :
    cprintf fuel currentFormat [.str (nameOf n), .int (BitVec.ofInt 32 n)] =
      some (currentLine n, []) := by
  set ps : List Piece := [.directive ⟨false, false, 0, false, .s⟩ (.str (nameOf n)) rfl,
    .literal (ascii ' ') (by decide), .literal (ascii '(') (by decide),
    .literal (ascii 'P') (by decide), .literal (ascii 'I') (by decide),
    .literal (ascii 'D') (by decide), .literal (ascii ' ') (by decide)] ++ pidPieces n ++
    [.literal (ascii ')') (by decide), .literal (ascii '\n') (by decide)] with hps
  have hplain : ∀ q ∈ ps, Plain q := by
    rw [hps, List.forall_mem_append, List.forall_mem_append]
    refine ⟨⟨?_, plain_pid n⟩, by simp [Plain]⟩
    simp only [List.forall_mem_cons, List.not_mem_nil, false_implies, implies_true, and_true, Plain]
    decide
  have htext := cprintf_text hfuel (t := currentText) (by decide) hplain
  have hname : (⟨false, false, 0, false, .s⟩ : Directive).render
      (value ⟨false, false, 0, false, .s⟩ (.str (nameOf n))) = (nameOf n).chars := field_zero _
  have hrender : currentText ++ ps.flatMap Piece.render = currentLine n := by
    simp only [hps, pidPieces, List.flatMap_cons, List.flatMap_nil, Piece.render, render_pid hn,
      hname, currentLine, List.append_nil, List.append_assoc, List.cons_append, List.nil_append]
    rfl
  rw [hrender] at htext
  exact htext

/-! ## The names over a run -/

/-- The tables, and the name that each process has by its pid. -/
structure Table (l : Named) (ram : Set ℕ) (procs : List ℕ) : Prop where
  table : l.sys.Table ram procs
  two : 2 ≤ procs.length
  name : ∀ p ∈ procs, l.name p = nameOf (l.sys.task p).pid

/-- `do_fork` puts the child where `alloc_proc` cleared the name. -/
theorem doFork_named {sys : Sched} {cloneFlags stack : Word} {tf : TrapFrame} {pid : ℤ}
    {name : ℕ → CString} (h : l.sys.Table ram procs) (hname : l.allocProc = some name)
    (heq : l.sys.doFork cloneFlags stack tf = some (pid, sys)) :
    ∃ proc kst, l.sys.Forked stack tf proc kst sys ∧ pid = procs.length ∧
      sys.Table ram (proc :: procs) ∧ name = Function.update l.name proc noName := by
  obtain ⟨bs, hinv⟩ := h.free
  have hcur := h.notFree _ h.current
  have hpid := (h.doFork heq).1
  rw [Sched.doFork, Option.bind_eq_bind, Option.bind_eq_some_iff] at heq
  obtain ⟨⟨proc, u⟩, hchild, heq⟩ := heq
  obtain ⟨kst, pmm, pmm', halloc, ht, -, ht', -, rfl⟩ := Sched.forkChild_spec hinv hcur hchild
  obtain ⟨v, hlist, hf⟩ := Sched.enlist_forked stack tf hcur ht ht'
  obtain ⟨-, rfl⟩ := Prod.mk.inj (Option.some.inj (hlist.symm.trans heq))
  refine ⟨proc, kst, hf, hpid, h.forked hf, ?_⟩
  rw [allocProc, Vm.allocPages, halloc] at hname
  exact (Option.some.inj hname).symm

/-- The names that there were stay with their processes. -/
theorem name_forked {sys : Sched} {stack : Word} {tf : TrapFrame} {proc kst : ℕ}
    (h : l.sys.Table ram procs) (hf : l.sys.Forked stack tf proc kst sys)
    (hname : ∀ p ∈ procs, l.name p = nameOf (l.sys.task p).pid) :
    ∀ p ∈ procs, Function.update l.name proc noName p = nameOf (sys.task p).pid := by
  intro p hp
  have hne : p ≠ proc := fun heq => h.new hf (heq ▸ hp)
  have hpid : (sys.task p).pid = (l.sys.task p).pid :=
    TaskStruct.core_congr TaskStruct.pid (fun _ => rfl) (hf.others p hne)
  rw [Function.update_of_ne hne, hpid, hname p hp]

/-- A call that comes back enters one process when it is `do_fork`, and none otherwise. -/
theorem Table.exec {op : SchedOp} (h : l.Table ram procs) (hok : l.Callable op)
    (heq : l.exec op = some l') : ∃ procs', l'.Table ram procs' ∧
      procs'.length = procs.length + if isFork op then 1 else 0 := by
  by_cases hop : ∃ cloneFlags stack tf, op = .fork cloneFlags stack tf
  · obtain ⟨cloneFlags, stack, tf, rfl⟩ := hop
    obtain ⟨name, hname, heq⟩ := Option.bind_eq_some_iff.mp heq
    obtain ⟨⟨pid, sys⟩, hfork, heq⟩ := Option.bind_eq_some_iff.mp heq
    obtain rfl := Option.some.inj heq
    obtain ⟨proc, kst, hf, -, htable, rfl⟩ := doFork_named h.table hname hfork
    have htwo := h.two
    refine ⟨proc :: procs, ⟨htable, by rw [List.length_cons]; omega, ?_⟩, rfl⟩
    refine List.forall_mem_cons.mpr ⟨?_, name_forked h.table hf h.name⟩
    -- the pid of the child is neither 0 nor 1
    have hpid : (sys.task proc).pid = procs.length := hf.child_pid.trans h.table.nextPid
    show Function.update l.name proc noName proc = nameOf (sys.task proc).pid
    rw [Function.update_self, hpid, nameOf, if_neg (by omega), if_neg (by omega)]
  · have hexec : l.exec op = (l.sys.exec op).bind fun sys => some ⟨sys, l.name⟩ := by
      rw [Named.exec]
      · rfl
      · exact fun cloneFlags stack tf hh => hop ⟨cloneFlags, stack, tf, hh⟩
    rw [hexec, Option.bind_eq_some_iff] at heq
    obtain ⟨sys, hsys, heq⟩ := heq
    obtain rfl := Option.some.inj heq
    rcases h.table.exec hok hsys with htable | ⟨cloneFlags, stack, tf, _, _, hfork, -⟩
    · have hnone : isFork op = false := by
        cases op with
        | fork cloneFlags stack tf => exact absurd ⟨cloneFlags, stack, tf, rfl⟩ hop
        | _ => rfl
      refine ⟨procs, ⟨htable, h.two, fun p hp => ?_⟩, by simp [hnone]⟩
      -- the pids along the list are the same numbers
      have hpids := List.map_inj_left.mp (h.table.pids.trans htable.pids.symm) p hp
      rw [h.name p hp, hpids]
    · exact absurd ⟨cloneFlags, stack, tf, hfork⟩ hop

theorem Table.run {ops : List SchedOp} (h : l.Table ram procs)
    (hok : Allowed Named.exec Callable ops l) (heq : ops.foldlM Named.exec l = some l') :
    ∃ procs', l'.Table ram procs' ∧ procs'.length = procs.length + ops.countP isFork := by
  induction ops generalizing l procs with
  | nil =>
    obtain rfl := Option.some.inj heq
    exact ⟨procs, h, rfl⟩
  | cons op ops ih =>
    rw [List.foldlM_cons, Option.bind_eq_bind, Option.bind_eq_some_iff] at heq
    obtain ⟨u, hu, heq⟩ := heq
    obtain ⟨procs₁, h₁, hlen₁⟩ := h.exec hok.1 hu
    obtain ⟨procs', h', hlen'⟩ := ih h₁ (hok.2 u hu) heq
    refine ⟨procs', h', ?_⟩
    rw [hlen', hlen₁, List.countP_cons]
    omega

theorem Started.table (h : l.Started ram) :
    (∀ p ∈ ram, p < 2 ^ 20) ∧ ∃ procs, l.Table ram procs ∧ procs.length = 2 := by
  obtain ⟨l₀, userStack, initMain, hb, heq⟩ := h
  refine ⟨hb.low, ?_⟩
  obtain ⟨u, hidle, heq⟩ := Option.bind_eq_some_iff.mp heq
  obtain ⟨name, -, hidle⟩ := Option.bind_eq_some_iff.mp hidle
  obtain ⟨sys, hsys, hidle⟩ := Option.bind_eq_some_iff.mp hidle
  obtain rfl := Option.some.inj hidle
  obtain ⟨idle, ho, htable⟩ := Sched.idleInit_table hb hsys
  have hidleName : ∀ p ∈ [idle], Function.update name sys.idleProc idleName p =
      nameOf (sys.task p).pid := by
    intro p hp
    obtain rfl := List.mem_singleton.mp hp
    obtain ⟨t, ht⟩ := ho.task
    rw [ho.idleProc, Function.update_self, ht]
    rfl
  obtain ⟨name', hname', heq⟩ := Option.bind_eq_some_iff.mp heq
  obtain ⟨sys', hsys', heq⟩ := Option.bind_eq_some_iff.mp heq
  obtain ⟨init, hinit, heq⟩ := Option.bind_eq_some_iff.mp heq
  obtain rfl := Option.some.inj heq
  rw [Sched.initProcInit, Option.bind_eq_bind, Option.bind_eq_some_iff] at hsys'
  obtain ⟨⟨ret, v⟩, hfork, hsys'⟩ := hsys'
  obtain ⟨proc, kst, hf, hret, htable', rfl⟩ :=
    doFork_named (l := ⟨sys, Function.update name sys.idleProc idleName⟩) htable hname' hfork
  have hchild : (v.task proc).pid = 1 := hf.child_pid.trans htable.nextPid
  -- the process with pid 1 is the child
  have hfind : v.findProc ret = some (some proc) := by
    rw [hret, htable'.findProc_eq (by simp), List.find?_cons_of_pos]
    rw [decide_eq_true_eq, hchild]
    rfl
  simp only [hfind, Option.bind_eq_bind, Option.bind_some] at hsys'
  obtain rfl := Option.some.inj hsys'
  obtain rfl : proc = init := Option.some.inj hinit
  have hsysTable : ({ v with initProc := some proc } : Sched).Table ram [proc, idle] :=
    { htable' with
      initProc := fun p hp => by
        obtain rfl := Option.some.inj hp
        exact List.mem_cons_self }
  refine ⟨[proc, idle], ⟨hsysTable, Nat.le_refl 2,
    List.forall_mem_cons.mpr ⟨?_, fun p hp => ?_⟩⟩, rfl⟩
  · refine (Function.update_self ..).trans ?_
    show initName = nameOf (v.task proc).pid
    rw [hchild]
    rfl
  · have hne : p ≠ proc := fun hh => htable.new hf (hh ▸ hp)
    refine (Function.update_of_ne hne ..).trans ?_
    exact name_forked htable hf hidleName p hp

/-! ## The table -/

/-- The pid and the parent's pid of a process of the tables. -/
theorem Table.numbers (h : l.Table ram procs) (hlow : ∀ p ∈ ram, p < 2 ^ 20) {p : ℕ}
    (hp : p ∈ procs) : (0 ≤ (l.sys.task p).pid ∧ (l.sys.task p).pid < 2 ^ 20) ∧
      -1 ≤ l.parentPid p ∧ l.parentPid p < 2 ^ 20 := by
  have hlen := h.table.length_le hlow
  have hpid : ∀ q ∈ procs, 0 ≤ (l.sys.task q).pid ∧ (l.sys.task q).pid < 2 ^ 20 := by
    intro q hq
    have hrange := h.table.exists_pid_iff.mp ⟨q, hq, rfl⟩
    omega
  refine ⟨hpid p hp, ?_⟩
  unfold parentPid
  split
  · rename_i parent heq
    have hparent := hpid parent (h.table.parent p hp parent heq)
    omega
  · omega

theorem Table.printProc_eq (h : l.Table ram procs) (hlow : ∀ p ∈ ram, p < 2 ^ 20)
    (hfuel : 64 < fuel) {p : ℕ} (hp : p ∈ procs) :
    l.printProc mmAddr fuel p = some (l.row mmAddr p, []) := by
  obtain ⟨hpid, hparent⟩ := h.numbers hlow hp
  rw [Named.printProc_eq hfuel, row_eq (by omega) (by omega) (h.name p hp)]

/-- All rows, the oldest process first. -/
theorem Table.rows (h : l.Table ram procs) (hlow : ∀ p ∈ ram, p < 2 ^ 20) (hfuel : 64 < fuel) :
    listForEachPrev l.sys.link .procList le2procList (l.printProc mmAddr fuel)
      (l.sys.nrProcess.toNat + 1) .procList =
      some (procs.reverse.map fun p => (l.row mmAddr p, [])) := by
  have hentry : ∀ p, le2procList (.listLink p) = some p := fun _ => rfl
  have hn := h.table.nrProcess
  rw [listForEachPrev_ring hentry h.table.roster (by omega)]
  have hrows : ∀ ps ⊆ procs, ps.mapM (l.printProc mmAddr fuel) =
      some (ps.map fun p => (l.row mmAddr p, [])) := by
    intro ps hps
    induction ps with
    | nil => rfl
    | cons p ps ih =>
      obtain ⟨hp, hps⟩ := List.cons_subset.mp hps
      rw [List.mapM_cons, h.printProc_eq hlow hfuel hp, ih hps]
      rfl
  exact hrows _ fun p hp => List.mem_reverse.mp hp

theorem Table.printAllProcs_eq (h : l.Table ram procs) (hlow : ∀ p ∈ ram, p < 2 ^ 20)
    (hfuel : 64 < fuel) : l.printAllProcs mmAddr fuel =
      some (psTitle ++ psRule ++ procs.reverse.flatMap (l.row mmAddr) ++ totalLine procs.length ++
        currentLine (l.sys.task l.sys.current).pid.toNat) := by
  have hlen := h.table.length_le hlow
  have hcur := (h.numbers hlow h.table.current).1
  obtain ⟨n, hn⟩ := Int.eq_ofNat_of_zero_le hcur.1
  have htitle : cprintf fuel psTitle [] = some (psTitle, []) := cprintf_literals (by decide) []
  have hrule : cprintf fuel psRule [] = some (psRule, []) := cprintf_literals (by decide) []
  have htotal := cprintf_total hfuel (n := procs.length) (by omega)
  have hcurrent := cprintf_current hfuel (n := n) (by omega)
  rw [printAllProcs, htitle, hrule, h.rows hlow hfuel, h.table.nrProcess, htotal,
    h.name _ h.table.current, hn, hcurrent, Int.toNat_natCast]
  simp only [Option.bind_eq_bind, Option.bind_some, List.flatMap_map]

theorem exists_enumeration (l : List ℕ) : ∃ f : ℕ → ℕ, (List.range l.length).map f = l :=
  ⟨fun i => l[i]?.getD 0, List.ext_getElem (by simp) fun i hi hi' => by simp [hi']⟩

/-- After `sched_init` and any calls `ps` comes to its end, with a row for each process that was
ever made and no other, in the order of the pids, and the number of the rows below them, which is
two and one for each `do_fork`; one row is marked, and it is that of the process in the last
line. -/
theorem ps_lists_processes {ops : List SchedOp} (h : l.Started ram)
    (hok : Allowed Named.exec Callable ops l) (heq : ops.foldlM Named.exec l = some l')
    (hfuel : 64 < fuel) (mmAddr : ℕ → Word) : ∃ (n : ℕ) (proc : ℕ → ℕ),
      n = 2 + ops.countP isFork ∧
      l'.sys.nrProcess = n ∧ (∀ i < n, (l'.sys.task (proc i)).pid = i) ∧
      (∀ p, l'.sys.link.OnList .procList (.listLink p) ↔ ∃ i < n, proc i = p) ∧
      ∃ current < n, (∀ i < n, l'.mark (proc i) = ascii '*' ↔ i = current) ∧
        l'.printAllProcs mmAddr fuel =
          some (psTitle ++ psRule ++ (List.range n).flatMap (fun i => l'.row mmAddr (proc i)) ++
            totalLine n ++ currentLine current) := by
  obtain ⟨hlow, procs₀, h₀, htwo⟩ := h.table
  obtain ⟨procs, ht, hcount⟩ := h₀.run hok heq
  obtain ⟨proc, hrange⟩ := exists_enumeration procs.reverse
  rw [List.length_reverse] at hrange
  have hpid : ∀ i < procs.length, (l'.sys.task (proc i)).pid = i := by
    have hpids := congrArg List.reverse ht.table.pids
    rw [← List.map_reverse, ← List.map_reverse, List.reverse_reverse, ← hrange,
      List.map_map] at hpids
    exact fun i hi => List.map_inj_left.mp hpids i (List.mem_range.mpr hi)
  have hmem : ∀ p, p ∈ procs ↔ ∃ i < procs.length, proc i = p := by
    intro p
    rw [← List.mem_reverse, ← hrange]
    simp
  obtain ⟨current, hlt, hcur⟩ := (hmem _).mp ht.table.current
  refine ⟨procs.length, proc, htwo ▸ hcount, ht.table.nrProcess, hpid,
    fun p => ht.table.mem_iff.trans (hmem p), current, hlt, ?_, ?_⟩
  · intro i hi
    have hmark : l'.mark (proc i) = ascii '*' ↔ proc i = l'.sys.current := by
      unfold mark
      split_ifs with hc
      · simp [hc]
      · exact iff_of_false (by decide) hc
    rw [hmark, ← hcur]
    refine ⟨fun heq => ?_, congrArg proc⟩
    have hpids := hpid i hi
    rw [heq, hpid current hlt] at hpids
    exact_mod_cast hpids.symm
  · rw [ht.printAllProcs_eq hlow hfuel, ← hrange, List.flatMap_map, ← hcur, hpid current hlt]
    rfl

/-- The idle process makes another process, which makes a third one and exits. -/
theorem ps_lists_processes_sample : ∃ l l' rows current,
    Named.schedInit ⟨Sched.sample 12, fun _ => noName⟩ 0#32 0#32 = some l ∧
    [Sched.forkOp, .schedule, Sched.forkOp, .exit 0].foldlM exec l = some l' ∧
    l'.printAllProcs (fun _ => 0#32) 65 =
      some (psTitle ++ psRule ++ rows ++ totalLine 4 ++ currentLine current) := by
  have hsome : ((Named.schedInit ⟨Sched.sample 12, fun _ => noName⟩ 0#32 0#32).bind fun l =>
      [Sched.forkOp, .schedule, Sched.forkOp, .exit 0].foldlM exec l).isSome := by
    decide +kernel
  obtain ⟨l', hl'⟩ := Option.isSome_iff_exists.mp hsome
  obtain ⟨l, hl, hl'⟩ := Option.bind_eq_some_iff.mp hl'
  have hstarted : l.Started (Set.Ico 4 (4 + 12)) :=
    ⟨_, _, _, Sched.sample_booted (by decide) (by decide), hl⟩
  have hallowed : Allowed exec Callable [Sched.forkOp, .schedule, Sched.forkOp, .exit 0] l :=
    ⟨trivial, fun _ _ => ⟨trivial, fun _ _ => ⟨trivial, fun _ _ => ⟨trivial, fun _ _ => trivial⟩⟩⟩⟩
  obtain ⟨n, proc, rfl, -, -, -, current, -, -, hprint⟩ :=
    ps_lists_processes hstarted hallowed hl' (show 64 < 65 by decide) fun _ => 0#32
  exact ⟨l, l', _, current, hl, hl', hprint⟩

end Named
end Zonix
