/-
# `LiteBSD.Vfs.Sysinfo` — the texts of the files in `/proc` and `/sys`

The renderers of `src/sysinfo.c`.  An `obuf` is its bytes so far and its
capacity; `ob_putc` drops what does not fit, and leaves room for a NUL.
`SysInfo` is what the renderers read of the rest of the kernel, a `TaskInfo` what
they read of a task.

A renderer fails for a slot it does not know and for a buffer that is too
small.  Neither happens to `synth_open` and `synth_stat`, which have 2048
bytes and take the slot from a table (`synthContent_some`).
-/
import LiteBSD.Vfs.Model
import LiteBSD.Vfs.Entries
import Mathlib.Tactic.IntervalCases

namespace LiteBSD

/-- `struct obuf` -/
structure Obuf where
  cap : Nat
  b : CStr

def obPutc (o : Obuf) (c : UInt8) : Obuf :=
  if o.b.length + 1 < o.cap then { o with b := o.b ++ [c] } else o

def obPuts (o : Obuf) (s : CStr) : Obuf := s.foldl obPutc o

/-- The digits of `v`, the last one first, while `tmp` has room. -/
def digitsOf : Nat → Nat → CStr
  | 0, _ => []
  | room + 1, v => if v = 0 then [] else (48 + v % 10).toUInt8 :: digitsOf room (v / 10)

theorem length_digitsOf (room v : Nat) : (digitsOf room v).length ≤ room := by
  induction room generalizing v with
  | zero => exact Nat.le_refl _
  | succ room ih =>
      rw [digitsOf]
      split
      · exact Nat.zero_le _
      · exact Nat.succ_le_succ (ih _)

def obPutu (o : Obuf) (v : Nat) : Obuf :=
  if v = 0 then obPutc o 48 else obPuts o (digitsOf 12 v).reverse

def obPutHundredths (o : Obuf) (ticks : Nat) : Obuf :=
  let o := obPutc (obPutu o (ticks / 100)) dot
  let cc := ticks % 100
  obPutc (obPutc o (48 + cc / 10).toUInt8) (48 + cc % 10).toUInt8

/-- The part of a `struct net_device` that is shown. -/
structure NetDevice where
  name : CStr
  gateway : Nat
  rxPackets : Nat
  txPackets : Nat
  rxBytes : Nat
  txBytes : Nat

/-- The part of a `task_t` that is shown.  `cmdline` goes on behind the 256
bytes of the array with what follows it. -/
structure TaskInfo where
  pid : Nat
  ppid : Nat
  state : Nat
  heapStart : Nat
  heapBrk : Nat
  heapEnd : Nat
  cpuTicks : Nat
  startTick : Nat
  comm : CStr
  cmdline : Nat → UInt8

/-- What is shown of the rest of the kernel. -/
structure SysInfo where
  memTotalKb : Nat
  initrdBytes : Nat
  heapUsed : Nat
  cpuVendor : CStr
  cpuBrand : CStr
  cpuFamily : Nat
  cpuModel : Nat
  cpuStepping : Nat
  dmiVendor : CStr
  dmiProduct : CStr
  dmiVersion : CStr
  ticks : Nat
  idleTicks : Nat
  nextPid : Nat
  taskCount : Nat
  devices : List NetDevice
  /-- `netdev_get_default()` -/
  device : Option NetDevice

def kernMemTotalKb (k : SysInfo) : Nat :=
  if k.memTotalKb ≠ 0 then k.memTotalKb else u32 (0x1000000 + k.initrdBytes) / 1024

def kernMemFreeKb (k : SysInfo) : Nat :=
  let usedKb := u32 (k.heapUsed / 1024 + k.initrdBytes / 1024)
  if usedKb ≥ k.memTotalKb then 0 else k.memTotalKb - usedKb

def genMeminfo (k : SysInfo) (o : Obuf) : Obuf :=
  let total := kernMemTotalKb k
  let free := kernMemFreeKb k
  let heapKb := k.heapUsed / 1024
  let cachedKb := k.initrdBytes / 1024
  let used := if total ≥ free then total - free else 0
  let activeKb :=
    if used ≥ u32 (heapKb + cachedKb) then sub32 (sub32 used heapKb) cachedKb else 0
  let o := obPutu (obPuts o (str "MemTotal:       ")) total
  let o := obPutu (obPuts o (str " kB\nMemFree:        ")) free
  let o := obPutu (obPuts o (str " kB\nMemAvailable:   ")) (u32 (free + cachedKb))
  let o := obPutu (obPuts o (str " kB\nBuffers:            0 kB\nCached:         ")) cachedKb
  let o := obPutu (obPuts o (str " kB\nActive:         ")) activeKb
  let o := obPuts o (str " kB\nInactive:           0 kB\nShmem:              0 kB\nSlab:           ")
  let o := obPutu o heapKb
  let o := obPuts o (str " kB\nSReclaimable:       0 kB\nSwapTotal:          0 kB\n")
  let o := obPuts o (str "SwapFree:           0 kB\nDirty:              0 kB\n")
  let o := obPuts o (str "Writeback:          0 kB\nAnonPages:      ")
  let o := obPutu o activeKb
  obPuts o (str " kB\nMapped:          3072 kB\nPageTables:       256 kB\n")

def genCpuinfo (k : SysInfo) (o : Obuf) : Obuf :=
  let o := obPuts (obPuts o (str "processor\t: 0\nvendor_id\t: ")) k.cpuVendor
  let o := obPutu (obPuts o (str "\ncpu family\t: ")) k.cpuFamily
  let o := obPutu (obPuts o (str "\nmodel\t\t: ")) k.cpuModel
  let o := obPuts (obPuts o (str "\nmodel name\t: ")) k.cpuBrand
  let o := obPutu (obPuts o (str "\nstepping\t: ")) k.cpuStepping
  obPuts o (str "\n")

def genUptime (k : SysInfo) (o : Obuf) : Obuf :=
  let o := obPutc (obPutHundredths o k.ticks) 32
  obPutc (obPutHundredths o k.idleTicks) 10

def genVersion (o : Obuf) : Obuf :=
  obPuts o (str "LiteBSD version 2.0 (root@litebsd) i386\n")

def genLoadavg (k : SysInfo) (o : Obuf) : Obuf :=
  let o := obPutc (obPutu (obPuts o (str "0.00 0.00 0.00 ")) 1) slash
  let o := obPutc (obPutu o k.taskCount) 32
  obPutc (obPutu o (sub32 k.nextPid 1)) 10

def genStat (k : SysInfo) (o : Obuf) : Obuf :=
  let user := if k.ticks ≥ k.idleTicks then k.ticks - k.idleTicks else 0
  let o := obPutu (obPuts o (str "cpu  ")) user
  let o := obPutu (obPuts o (str " 0 0 ")) k.idleTicks
  let o := obPutu (obPuts o (str " 0 0 0 0 0 0\ncpu0 ")) user
  let o := obPutu (obPuts o (str " 0 0 ")) k.idleTicks
  let o := obPutu (obPuts o (str " 0 0 0 0 0 0\nbtime 0\nprocesses ")) k.taskCount
  obPutc o 10

/-- A line of `/proc/net/dev`. -/
def genDevice (o : Obuf) (d : NetDevice) : Obuf :=
  let o := obPuts (obPuts (obPuts o (str "  ")) d.name) (str ": ")
  let o := obPutu (obPutc (obPutu o d.rxBytes) 32) d.rxPackets
  let o := obPutu (obPuts o (str " 0 0 0 0 0 0 ")) d.txBytes
  let o := obPutu (obPutc o 32) d.txPackets
  obPuts o (str " 0 0 0 0 0 0\n")

def genNetDev (k : SysInfo) (o : Obuf) : Obuf :=
  let o := obPuts o (str "Inter-|   Receive                                                |  Transmit\n")
  let o := obPuts o (str " face |bytes    packets errs drop fifo frame compressed multicast|")
  let o := obPuts o (str "bytes    packets errs drop fifo colls carrier compressed\n")
  k.devices.foldl genDevice o

/-- `(d->gateway >> (b * 8)) & 0xFF` -/
def gatewayByte (d : NetDevice) (b : Nat) : Nat := d.gateway / 2 ^ (b * 8) % 256

/-- A digit of `"0123456789ABCDEF"`. -/
def hexDigit (n : Nat) : UInt8 := (str "0123456789ABCDEF").getD n 0

def genNetRoute (k : SysInfo) (o : Obuf) : Obuf :=
  let o := obPuts o (str "Iface\tDestination\tGateway \tFlags\tRefCnt\tUse\tMetric\tMask\t\tMTU\t")
  let o := obPuts o (str "Window\tIRTT\n")
  match k.device with
  | none => o
  | some d =>
      if d.gateway = 0 then o
      else
        let o := obPuts (obPuts o d.name) (str "\t00000000\t")
        let o := (List.range 4).foldl (fun o b =>
          obPutc (obPutc o (hexDigit (gatewayByte d b / 16))) (hexDigit (gatewayByte d b % 16))) o
        obPuts o (str "\t0003\t0\t0\t0\t00000000\t0\t0\t0\n")

def genNetArp (k : SysInfo) (o : Obuf) : Obuf :=
  let o := obPuts o (str "IP address       HW type     Flags       HW address            ")
  let o := obPuts o (str "Mask     Device\n")
  match k.device with
  | none => o
  | some d =>
      if d.gateway = 0 then o
      else
        let o := (List.range 4).foldl (fun o b =>
          let o := obPutu o (gatewayByte d b)
          if b < 3 then obPutc o dot else o) o
        let o := obPuts o (str "  0x1         0x2         52:54:00:12:34:02     *        ")
        obPuts (obPuts o d.name) (str "\n")

def procGenFile (k : SysInfo) (slot cap : Nat) : Option CStr :=
  let o : Obuf := ⟨cap, []⟩
  if cap < 16 then none
  else
    match slot with
    | 0 => some (genMeminfo k o).b
    | 1 => some (genCpuinfo k o).b
    | 2 => some (genUptime k o).b
    | 3 => some (genVersion o).b
    | 4 => some (genLoadavg k o).b
    | 5 => some (genStat k o).b
    | 6 => some (genNetDev k o).b
    | 7 => some (genNetRoute k o).b
    | 8 => some (genNetArp k o).b
    | _ => none

/-- `sizeof(t->cmdline)` -/
def cmdlineSize : Nat := 256

/-- The length of the argument that starts at `i`; `room` is what of the
array is still to come. -/
def cmdlineWord (t : TaskInfo) : Nat → Nat → Nat
  | 0, _ => 0
  | room + 1, i => if t.cmdline i = 0 then 0 else cmdlineWord t room (i + 1) + 1

/-- The loop over the arguments.  Each has a byte at least, so that there
are no more than bytes. -/
def cmdlineLen (t : TaskInfo) (cap : Nat) : Nat → Nat → Nat
  | 0, len => len
  | fuel + 1, len =>
      if len < cmdlineSize then
        let l := cmdlineWord t (cmdlineSize - len) len
        if l = 0 then len
        else if len + l + 1 ≥ cap then cap
        else cmdlineLen t cap fuel (len + l + 1)
      else len

def genCmdline (t : TaskInfo) (cap : Nat) : CStr :=
  (List.range (min (cmdlineLen t cap cmdlineSize 0) cap)).map t.cmdline

def genPidStat (t : TaskInfo) (o : Obuf) : Obuf :=
  let state : UInt8 := if t.state = 1 then 90 else if t.state = 2 then 83 else 82
  let vsize := if t.heapEnd > t.heapStart then u32 (t.heapEnd - t.heapStart + 0x400000) else 0
  let rss :=
    if t.heapEnd > t.heapStart ∧ t.heapBrk > t.heapStart then
      u32 (t.heapBrk - t.heapStart + 4095) / 4096
    else 0
  let o := obPuts (obPutu o t.pid) (str " (")
  let o := obPuts o (if t.comm = [] then str "?" else t.comm)
  let o := obPutc (obPutc (obPuts o (str ") ")) state) 32
  let o := obPutc (obPutu o t.ppid) 32
  let o := obPutu (obPutc (obPutu o t.pid) 32) t.pid
  let o := obPutu (obPuts o (str " 0 0 0 0 0 0 0 ")) t.cpuTicks
  let o := obPutu (obPuts o (str " 0 0 0 20 0 1 0 ")) t.startTick
  let o := obPutu (obPutc o 32) vsize
  let o := obPutu (obPutc o 32) rss
  obPuts o (str " 0 0 0 0 0 0 0 0 0 0 0 0 0 0 0 0 0 0 0 0 0 0 0 0 0 0 0 0 0\n")

def procGenPidfile (t : TaskInfo) (slot cap : Nat) : Option CStr :=
  if cap < 16 then none
  else
    match slot with
    | 0 => some (genPidStat t ⟨cap, []⟩).b
    | 1 => some (genCmdline t cap)
    | _ => none

def sysGenFile (k : SysInfo) (slot cap : Nat) : Option CStr :=
  let o : Obuf := ⟨cap, []⟩
  if cap < 8 then none
  else
    match slot with
    | 0 => some (obPutc (obPuts o k.dmiVendor) 10).b
    | 1 => some (obPutc (obPuts o k.dmiProduct) 10).b
    | 2 => some (obPutc (obPuts o k.dmiVersion) 10).b
    | _ => none

/-- `sizeof(content)` in `synth_open` and `synth_stat` -/
def contentMax : Nat := 2048

/-- What `synth_open` and `synth_stat` have in `content`, for a file.  The
task is the one that `find_task` found for the pid. -/
def synthContent (k : SysInfo) (tasks : List TaskInfo) : SynthId → Option CStr
  | .pidFile pid slot =>
      (tasks.find? fun t => t.pid = pid).bind fun t => procGenPidfile t slot contentMax
  | .proFile slot => procGenFile k slot contentMax
  | .sysFile slot => sysGenFile k slot contentMax
  | .procDir | .pidDir _ | .sysDir _ => none

/-- A caller in the directory `cwd`, with `tasks` on the ready queue. -/
def kernelCaller (k : SysInfo) (tasks : List TaskInfo) (cwd : CStr) : Caller :=
  ⟨cwd, tasks.map TaskInfo.pid, synthContent k tasks⟩

/-! ## What is in the buffer -/

/-- The buffer is of this capacity, and has room for a NUL. -/
def Obuf.Within (o : Obuf) (cap : Nat) : Prop := o.cap = cap ∧ o.b.length < cap

section Within

variable {o : Obuf} {cap : Nat}

@[simp] theorem within_putc (c : UInt8) : (obPutc o c).Within cap ↔ o.Within cap := by
  unfold obPutc
  split
  · rename_i hroom
    simp only [Obuf.Within, List.length_append, List.length_singleton]
    constructor
    · rintro ⟨rfl, hlen⟩
      exact ⟨rfl, Nat.lt_of_succ_lt hlen⟩
    · rintro ⟨rfl, _⟩
      exact ⟨rfl, hroom⟩
  · rfl

@[simp] theorem within_puts (s : CStr) : (obPuts o s).Within cap ↔ o.Within cap := by
  unfold obPuts
  induction s generalizing o with
  | nil => rfl
  | cons c s ih => exact ih.trans (within_putc c)

@[simp] theorem within_putu (v : Nat) : (obPutu o v).Within cap ↔ o.Within cap := by
  unfold obPutu
  split
  · exact within_putc _
  · exact within_puts _

@[simp] theorem within_putHundredths (ticks : Nat) :
    (obPutHundredths o ticks).Within cap ↔ o.Within cap := by
  simp [obPutHundredths]

/-- A loop whose rounds all stay within. -/
theorem within_foldl {α : Type} {f : Obuf → α → Obuf} (hf : ∀ o a, o.Within cap → (f o a).Within cap)
    (l : List α) (h : o.Within cap) : (l.foldl f o).Within cap := by
  induction l generalizing o with
  | nil => exact h
  | cons a l ih => exact ih (hf o a h)

theorem within_meminfo (h : o.Within cap) (k : SysInfo) : (genMeminfo k o).Within cap := by
  simp [genMeminfo, h]

theorem within_cpuinfo (h : o.Within cap) (k : SysInfo) : (genCpuinfo k o).Within cap := by
  simp [genCpuinfo, h]

theorem within_loadavg (h : o.Within cap) (k : SysInfo) : (genLoadavg k o).Within cap := by
  simp [genLoadavg, h]

theorem within_stat (h : o.Within cap) (k : SysInfo) : (genStat k o).Within cap := by
  simp [genStat, h]

theorem within_netDev (h : o.Within cap) (k : SysInfo) : (genNetDev k o).Within cap := by
  unfold genNetDev
  refine within_foldl (fun o d ho => ?_) _ ?_
  · simp [genDevice, ho]
  · simp [h]

theorem within_netRoute (h : o.Within cap) (k : SysInfo) : (genNetRoute k o).Within cap := by
  unfold genNetRoute
  dsimp only
  split
  · simp [h]
  · split
    · simp [h]
    · refine (within_puts _).mpr (within_foldl (fun o d ho => ?_) _ ?_)
      · simp [ho]
      · simp [h]

theorem within_netArp (h : o.Within cap) (k : SysInfo) : (genNetArp k o).Within cap := by
  unfold genNetArp
  dsimp only
  split
  · simp [h]
  · split
    · simp [h]
    · rw [within_puts, within_puts, within_puts]
      refine within_foldl (fun o d ho => ?_) _ ?_
      · split <;> simp [ho]
      · simp [h]

theorem within_pidStat (h : o.Within cap) (t : TaskInfo) : (genPidStat t o).Within cap := by
  simp [genPidStat, h]

end Within

/-- A renderer knows the slots of its table, and stays within its buffer. -/
theorem procGenFile_some (k : SysInfo) {slot cap : Nat} (hslot : slot < procFiles.length)
    (hcap : 16 ≤ cap) : ∃ content, procGenFile k slot cap = some content ∧ content.length ≤ cap := by
  have h : Obuf.Within ⟨cap, []⟩ cap := ⟨rfl, Nat.lt_of_lt_of_le (Nat.zero_lt_succ _) hcap⟩
  have hle : ∀ {o : Obuf}, o.Within cap → o.b.length ≤ cap := fun ho => Nat.le_of_lt ho.2
  change slot < 9 at hslot
  unfold procGenFile
  rw [if_neg (Nat.not_lt.mpr hcap)]
  interval_cases slot
  · exact ⟨_, rfl, hle (within_meminfo h k)⟩
  · exact ⟨_, rfl, hle (within_cpuinfo h k)⟩
  · exact ⟨_, rfl, hle (by simp [genUptime, h])⟩
  · exact ⟨_, rfl, hle (by simp [genVersion, h])⟩
  · exact ⟨_, rfl, hle (within_loadavg h k)⟩
  · exact ⟨_, rfl, hle (within_stat h k)⟩
  · exact ⟨_, rfl, hle (within_netDev h k)⟩
  · exact ⟨_, rfl, hle (within_netRoute h k)⟩
  · exact ⟨_, rfl, hle (within_netArp h k)⟩

theorem procGenPidfile_some (t : TaskInfo) {slot cap : Nat} (hslot : slot < pidFiles.length)
    (hcap : 16 ≤ cap) : ∃ content, procGenPidfile t slot cap = some content ∧ content.length ≤ cap := by
  have h : Obuf.Within ⟨cap, []⟩ cap := ⟨rfl, Nat.lt_of_lt_of_le (Nat.zero_lt_succ _) hcap⟩
  change slot < 2 at hslot
  unfold procGenPidfile
  rw [if_neg (Nat.not_lt.mpr hcap)]
  interval_cases slot
  · exact ⟨_, rfl, Nat.le_of_lt (within_pidStat h t).2⟩
  · refine ⟨_, rfl, ?_⟩
    rw [genCmdline, List.length_map, List.length_range]
    exact Nat.min_le_right _ _

theorem sysGenFile_some (k : SysInfo) {slot cap : Nat} (hslot : slot < sysFiles.length)
    (hcap : 8 ≤ cap) : ∃ content, sysGenFile k slot cap = some content ∧ content.length ≤ cap := by
  have h : Obuf.Within ⟨cap, []⟩ cap := ⟨rfl, Nat.lt_of_lt_of_le (Nat.zero_lt_succ _) hcap⟩
  have hline : ∀ s : CStr, (obPutc (obPuts ⟨cap, []⟩ s) 10).b.length ≤ cap := fun s =>
    Nat.le_of_lt ((within_putc 10).mpr ((within_puts s).mpr h)).2
  change slot < 3 at hslot
  unfold sysGenFile
  rw [if_neg (Nat.not_lt.mpr hcap)]
  interval_cases slot
  · exact ⟨_, rfl, hline _⟩
  · exact ⟨_, rfl, hline _⟩
  · exact ⟨_, rfl, hline _⟩

/-- Every file that `synth_lookup` finds has a text. -/
theorem synthContent_some (k : SysInfo) {tasks : List TaskInfo} {path : CStr} {sid : SynthId}
    (h : synthLookup (tasks.map TaskInfo.pid) path = some sid) (hfile : sid.isDir = false) :
    ∃ content, synthContent k tasks sid = some content ∧ content.length ≤ contentMax := by
  have hroom : 16 ≤ contentMax := by decide
  cases synthLookup_iff.mp h with
  | proc => cases hfile
  | net => cases hfile
  | proFile hname =>
      exact procGenFile_some k (List.getElem?_eq_some_iff.mp hname).1 hroom
  | pidDir => cases hfile
  | @pidFile s name pid slot ht hmem hname =>
      obtain ⟨t, ht, hpid⟩ := List.mem_map.mp hmem
      obtain ⟨u, hu⟩ : ∃ u, tasks.find? (fun t => t.pid = pid) = some u := by
        rw [← Option.isSome_iff_exists, List.find?_isSome]
        exact ⟨t, ht, decide_eq_true hpid⟩
      rw [synthContent, hu]
      exact procGenPidfile_some u (List.getElem?_eq_some_iff.mp hname).1 hroom
  | sysDir => cases hfile
  | sysFile hname =>
      exact sysGenFile_some k (List.getElem?_eq_some_iff.mp hname).1 (Nat.le_trans (by decide) hroom)

end LiteBSD
