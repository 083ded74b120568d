/-
  The lease of the extension (`lease.ts`) beside that of `cognis-core` (`lease.rs`).

  Both sides name a process by a start identity, a text that the other side only compares.
  Each reads it from the platform in its own way: the owner from its own `/proc/self/stat`,
  or else from the clock; the extension from `/proc/<pid>/stat`, `wmic` or `ps`.

  * `rsplitOnce_text` and `afterComm_text`: both find the start time in every line of
    `/proc/<pid>/stat`, whatever the name of the command;
  * `readLease_leaseFile`: the extension reads every record that an owner writes;
  * `startIdentity_disagrees`: the two texts are never the same one, so that no owner is
    ever confirmed, and no process takes over the record written for it.
-/
import Cognis.Core.Lease
import Cognis.Indexer.Text
import Cognis.Lib.Regex
import Cognis.Lib.Words

namespace Cognis

/-! ## `/proc/<pid>/stat` -/

/-- A field after the name of the command, of printable ASCII characters. -/
def IsStatField (f : List Char) : Prop :=
  f ≠ [] ∧ ∀ c ∈ f, 33 ≤ c.toNat ∧ c.toNat ≤ 126 ∧ c ≠ ')'

/-- A line of `/proc/<pid>/stat`; the start time is its 22nd field. -/
structure StatLine where
  pid : ℕ
  /-- the name of the command, of any characters -/
  comm : List Char
  before : List (List Char)
  starttime : ℕ
  after : List (List Char)
  before_length : before.length = 19
  isStatField : ∀ f ∈ before ++ after, IsStatField f

namespace StatLine

/-- The fields after the name of the command. -/
def fields (l : StatLine) : List (List Char) :=
  l.before ++ Nat.toDigits 10 l.starttime :: l.after

/-- What stands after the closing parenthesis. -/
def afterComm (l : StatLine) : List Char := l.fields.flatMap (' ' :: ·) ++ ['\n']

/-- The line as it is read. -/
def text (l : StatLine) : List Char :=
  Nat.toDigits 10 l.pid ++ [' ', '('] ++ l.comm ++ ')' :: l.afterComm

theorem isStatField_toDigits (n : ℕ) : IsStatField (Nat.toDigits 10 n) := by
  refine ⟨Nat.toDigits_ne_nil, fun c hc => ?_⟩
  have hdigit := Nat.isDigit_of_mem_toDigits (by decide) (by decide) hc
  rw [Char.isDigit, Bool.and_eq_true, decide_eq_true_eq, decide_eq_true_eq] at hdigit
  have hlow : 48 ≤ c.toNat := UInt32.le_iff_toNat_le.1 hdigit.1
  have hhigh : c.toNat ≤ 57 := UInt32.le_iff_toNat_le.1 hdigit.2
  refine ⟨by omega, by omega, ?_⟩
  rintro rfl
  exact absurd hlow (by decide)

theorem isStatField_fields (l : StatLine) : ∀ f ∈ l.fields, IsStatField f := by
  intro f hf
  simp only [fields, List.mem_append, List.mem_cons] at hf
  rcases hf with hf | rfl | hf
  · exact l.isStatField f (by simp [hf])
  · exact isStatField_toDigits _
  · exact l.isStatField f (by simp [hf])

theorem fields_getElem (l : StatLine) : l.fields[19]? = some (Nat.toDigits 10 l.starttime) := by
  rw [fields, List.getElem?_append_right (by simp [l.before_length]), l.before_length]
  rfl

theorem closing_notMem_afterComm (l : StatLine) : ')' ∉ l.afterComm := by
  intro hmem
  simp only [afterComm, List.mem_append, List.mem_flatMap, List.mem_cons, List.not_mem_nil,
    or_false] at hmem
  rcases hmem with ⟨f, hf, hmem | hmem⟩ | hmem
  · exact absurd hmem (by decide)
  · exact ((l.isStatField_fields f hf).2 _ hmem).2.2 rfl
  · exact absurd hmem (by decide)

/-- The words after the name of the command are the fields, for any notion of a separator
    that has the blank and the line feed, and no printable character. -/
theorem words_afterComm (l : StatLine) {p : Char → Bool} (hblank : p ' ') (hfeed : p '\n')
    (hp : ∀ c : Char, 33 ≤ c.toNat → c.toNat ≤ 126 → p c = false) :
    words p l.afterComm = l.fields := by
  rw [afterComm, words_flatMap hblank hfeed fun f hf => ⟨(l.isStatField_fields f hf).1, ?_⟩]
  · simp
  · intro c hc
    obtain ⟨hlow, hhigh, -⟩ := (l.isStatField_fields f hf).2 c hc
    exact hp c hlow hhigh

theorem rsplitOnce_text (l : StatLine) : rsplitOnce ')' l.text = some l.afterComm :=
  rsplitOnce_append l.closing_notMem_afterComm _

theorem afterLast_text (l : StatLine) : afterLast ')' l.text = l.afterComm :=
  afterLast_append l.closing_notMem_afterComm _

end StatLine

/-! ## The start identity of an owner -/

/-- `process.platform` -/
inductive Platform where
  | win32
  | linux
  /-- macOS and BSD -/
  | other
  deriving DecidableEq, Repr

/-- `read_os_process_start_id`, by the contents of `/proc/self/stat` where it can be read. -/
def readOsProcessStartId (platform : Platform) (stat : Option (List Char)) : Option String :=
  match platform with
  | .win32 => none
  | .linux | .other => do
    let afterComm ← rsplitOnce ')' (← stat)
    let field ← (words isWhitespace afterComm)[19]?
    some ("proc-starttime-" ++ String.ofList field)

/-- A process that takes a lease: what it sees when it first asks for its start identity. -/
structure OwnerProcess where
  pid : ℕ
  pid_ne_zero : pid ≠ 0
  startTime : ℕ
  /-- `/proc/self/stat`, where it is there and its bytes are UTF-8 -/
  stat : Option StatLine
  /-- the clock -/
  nanos : ℕ
  stat_startTime : ∀ l ∈ stat, l.starttime = startTime

/-- `this_process_start_id` -/
def thisProcessStartId (platform : Platform) (p : OwnerProcess) : String :=
  (readOsProcessStartId platform (p.stat.map StatLine.text)).getD
    ("start-" ++ String.ofList (Nat.toDigits 10 p.nanos))

/-- The process as `acquire_or_attach` sees it. -/
def OwnerProcess.process (platform : Platform) (p : OwnerProcess) (ttl : ℚ) : Process :=
  ⟨p.pid, thisProcessStartId platform p, ttl⟩

/-- The start identity of an owner: the start time behind a tag, or the clock. -/
theorem thisProcessStartId_cases (platform : Platform) (p : OwnerProcess) :
    thisProcessStartId platform p =
        "proc-starttime-" ++ String.ofList (Nat.toDigits 10 p.startTime) ∨
      thisProcessStartId platform p = "start-" ++ String.ofList (Nat.toDigits 10 p.nanos) := by
  cases platform with
  | win32 => exact .inr rfl
  | linux | other =>
    cases hstat : p.stat with
    | none => right; simp [thisProcessStartId, readOsProcessStartId, hstat]
    | some l =>
      have hspace : ∀ c : Char, 33 ≤ c.toNat → c.toNat ≤ 126 → isWhitespace c = false := by
        intro c hlow hhigh
        rw [isWhitespace, decide_eq_false_iff_not]
        omega
      have hfield := l.words_afterComm (p := isWhitespace) (by decide) (by decide) hspace
      left
      simp [thisProcessStartId, readOsProcessStartId, hstat, l.rsplitOnce_text, hfield,
        l.fields_getElem, p.stat_startTime l hstat]

/-! ## The lease of the extension -/

namespace Extension

/-- A value of a parsed JSON text. -/
inductive JsValue where
  /-- a number, and the text that `String` makes of it -/
  | number (value : ℚ) (text : String)
  | string (s : String)
  /-- a value of another type, or no value -/
  | other
  deriving DecidableEq, Repr

/-- `LeaseRecord` -/
structure LeaseRecord where
  ownerNonce : String
  pid : ℚ
  processStartId : String
  heartbeatAt : ℚ
  expiry : ℚ
  deriving DecidableEq, Repr

/-- What `JSON.parse` makes of a lease file, by its keys; `none` where the file is absent or
    empty, or no JSON text. -/
abbrev LeaseFile := Option (String → JsValue)

/-- `readLease` -/
def readLease (file : LeaseFile) : Option LeaseRecord := do
  let parsed ← file
  let startId ←
    match parsed "process_start_id" with
    | .string s => some s
    | .number _ text => some text
    | .other => none
  match parsed "owner_nonce", parsed "pid", parsed "heartbeat_at", parsed "expiry" with
  | .string nonce, .number pid _, .number heartbeat _, .number expiry _ =>
    some ⟨nonce, pid, startId, heartbeat, expiry⟩
  | _, _, _, _ => none

/-- The file of a record, which has the same keys on both sides; `text` is the text of a
    number. -/
def LeaseRecord.file (text : ℚ → String) (r : LeaseRecord) : LeaseFile :=
  some fun key =>
    if key = "owner_nonce" then .string r.ownerNonce
    else if key = "pid" then .number r.pid (text r.pid)
    else if key = "process_start_id" then .string r.processStartId
    else if key = "heartbeat_at" then .number r.heartbeatAt (text r.heartbeatAt)
    else if key = "expiry" then .number r.expiry (text r.expiry)
    else .other

/-- The text of a nonce, `{pid:x}-{nanos:x}-{mix:x}`. -/
def nonceText (n : OwnerNonce) : String :=
  .ofList (Text.join ['-'] [Nat.toDigits 16 n.pid, Nat.toDigits 16 n.nanos, Nat.toDigits 16 n.mix])

/-- A record of an owner, as the extension has it. -/
def LeaseRecord.ofOwner (r : Cognis.LeaseRecord) : LeaseRecord :=
  ⟨nonceText r.ownerNonce, r.pid, r.processStartId, r.heartbeatAt, r.expiry⟩

@[simp]
theorem readLease_file (text : ℚ → String) (r : LeaseRecord) : readLease (r.file text) = some r := by
  simp [readLease, LeaseRecord.file]

/-- `isLeaseExpired` -/
def isLeaseExpired (r : LeaseRecord) (now : ℚ) : Bool := r.expiry ≤ now

/-- `UNVERIFIED_PREFIX` -/
def unverifiedPrefix : String := "unverified-"

/-- `startsWith(UNVERIFIED_PREFIX)` -/
def isUnverified (startId : String) : Bool := unverifiedPrefix.toList.isPrefixOf startId.toList

/-! ## The process at a pid -/

/-- `\s` of a JavaScript expression, which is also what `trim` takes away. -/
def isJsSpace (c : Char) : Bool :=
  let n := c.toNat
  (9 ≤ n ∧ n ≤ 13) ∨ n = 32 ∨ n = 0xA0 ∨ n = 0x1680 ∨ (0x2000 ≤ n ∧ n ≤ 0x200A) ∨
    n = 0x2028 ∨ n = 0x2029 ∨ n = 0x202F ∨ n = 0x205F ∨ n = 0x3000 ∨ n = 0xFEFF

/-- `trim().split(/\s+/)` -/
def trimSplit (s : List Char) : List (List Char) :=
  let trimmed := trimWith isJsSpace s
  if trimmed = [] then [[]] else words isJsSpace trimmed

/-- What the platform tells of the processes: the start time of the one that has a pid, and
    what the extension can read of it. -/
structure Host where
  platform : Platform
  startTime : ℕ → Option ℕ
  /-- `/proc/<pid>/stat` -/
  stat : ℕ → Option StatLine
  /-- what `wmic`, `Get-CimInstance` and `ps` print when they succeed -/
  wmic : ℕ → Option (List Char)
  cim : ℕ → Option (List Char)
  ps : ℕ → Option (List Char)
  stat_startTime : ∀ pid, ∀ l ∈ stat pid, startTime pid = some l.starttime

/-- `/CreationDate=(\S+)/` -/
def creationDate : Regex Char :=
  .seq (.lit "CreationDate=".toList) (.cap (.plus fun c => !isJsSpace c))

/-- `queryProcessStartId` -/
def queryProcessStartId (host : Host) (pid : ℕ) : Option String :=
  if pid = 0 then none else
    match host.platform with
    | .win32 =>
      match (host.wmic pid).bind fun out => (creationDate.captures out).head? with
      | some m => some ("win-" ++ String.ofList m)
      | none => do
        let out := trimWith isJsSpace (← host.cim pid)
        if out = [] then none else some ("win-" ++ String.ofList out)
    | .linux => do
      let afterComm := trimSplit (afterLast ')' (← host.stat pid).text)
      let starttime ← afterComm[19]?
      if starttime = [] then none else some ("proc-" ++ String.ofList starttime)
    | .other => do
      let out := trimWith isJsSpace (← host.ps pid)
      if out = [] then none
      else some ("ps-" ++ String.ofList (Text.join ['_'] (words isJsSpace out)))

/-- `OwnerVerification` -/
inductive OwnerVerification where
  /-- `"match"` -/
  | matched
  | mismatch
  | unknown
  deriving DecidableEq, Repr

/-- `verifyLeaseOwner` -/
def verifyLeaseOwner (host : Host) (file : LeaseFile) (pid : ℕ) : OwnerVerification :=
  if pid = 0 then .unknown else
    match readLease file with
    | none => .unknown
    | some lease =>
      if lease.pid ≠ pid then .unknown
      else if isUnverified lease.processStartId then .unknown
      else
        match queryProcessStartId host pid with
        | none => .unknown
        | some current => if current = lease.processStartId then .matched else .mismatch

/-- `reconcileOrphanLease`: the record that is written, if any. -/
def reconcileOrphanLease (host : Host) (file : LeaseFile) (now : ℚ) (nonce : String) (pid : ℕ)
    (ttlSeconds : ℚ) : Option LeaseRecord :=
  if pid = 0 then none else
    let recorded := (readLease file).any fun existing =>
      decide (existing.pid = (pid : ℚ)) && !isLeaseExpired existing now && !isUnverified existing.processStartId
    if recorded then none else
      let startId := (queryProcessStartId host pid).getD
        (unverifiedPrefix ++ toString (now * 1000).floor)
      some ⟨nonce, pid, startId, now, now + ttlSeconds⟩

/-! ## The two start identities -/

theorem afterComm_text (l : StatLine) : trimSplit (afterLast ')' l.text) = l.fields := by
  have hspace : ∀ c : Char, 33 ≤ c.toNat → c.toNat ≤ 126 → isJsSpace c = false := by
    intro c hlow hhigh
    rw [isJsSpace, decide_eq_false_iff_not]
    omega
  have hwords : words isJsSpace (trimWith isJsSpace l.afterComm) = l.fields := by
    rw [words_trim, l.words_afterComm (by decide) (by decide) hspace]
  rw [l.afterLast_text, trimSplit, hwords, if_neg]
  intro hnil
  rw [hnil, words_nil] at hwords
  have hfield := l.fields_getElem
  simp [← hwords] at hfield

/-- On Linux the extension reads the start time, behind a tag of its own. -/
theorem queryProcessStartId_linux {host : Host} (hhost : host.platform = .linux) {pid : ℕ}
    {l : StatLine} (hpid : pid ≠ 0) (hstat : host.stat pid = some l) :
    queryProcessStartId host pid =
      some ("proc-" ++ String.ofList (Nat.toDigits 10 l.starttime)) := by
  simp [queryProcessStartId, hpid, hhost, hstat, afterComm_text, l.fields_getElem,
    Nat.toDigits_ne_nil]

/-- The start identities of the extension. -/
inductive IsExtensionId : String → Prop
  | proc (t : ℕ) : IsExtensionId ("proc-" ++ String.ofList (Nat.toDigits 10 t))
  | win (s : String) : IsExtensionId ("win-" ++ s)
  | ps (s : String) : IsExtensionId ("ps-" ++ s)
  | unverified (s : String) : IsExtensionId (unverifiedPrefix ++ s)

theorem isExtensionId_of_query {host : Host} {pid : ℕ} {id : String}
    (h : queryProcessStartId host pid = some id) : IsExtensionId id := by
  rw [queryProcessStartId] at h
  split at h
  · cases h
  cases hplatform : host.platform with
  | win32 =>
    rw [hplatform] at h
    simp only at h
    split at h
    · cases h; exact .win _
    · simp only [Option.bind_eq_bind, Option.bind_eq_some_iff] at h
      obtain ⟨out, -, h⟩ := h
      split at h
      · cases h
      · cases h; exact .win _
  | linux =>
    rw [hplatform] at h
    simp only [Option.bind_eq_bind, Option.bind_eq_some_iff, afterComm_text] at h
    obtain ⟨l, -, field, hfield, h⟩ := h
    rw [l.fields_getElem, Option.some.injEq] at hfield
    subst hfield
    split at h
    · cases h
    · cases h; exact .proc _
  | other =>
    rw [hplatform] at h
    simp only [Option.bind_eq_bind, Option.bind_eq_some_iff] at h
    obtain ⟨out, -, h⟩ := h
    split at h
    · cases h
    · cases h; exact .ps _

/-- Texts with tags that differ differ. -/
theorem append_ne_append {a b : String} (n : ℕ) (ha : n ≤ a.toList.length)
    (hb : n ≤ b.toList.length) (h : a.toList.take n ≠ b.toList.take n) (s t : String) :
    a ++ s ≠ b ++ t := by
  intro heq
  apply h
  have hlist := congrArg (List.take n ∘ String.toList) heq
  simpa [List.take_append_of_le_length, ha, hb] using hlist

/-- A number does not start with a letter. -/
theorem toDigits_ne_append (n : ℕ) (s : String) :
    String.ofList (Nat.toDigits 10 n) ≠ "starttime-" ++ s := by
  intro heq
  have hmem : 's' ∈ Nat.toDigits 10 n := by
    rw [← String.toList_ofList (l := Nat.toDigits 10 n), heq, String.toList_append]
    exact List.mem_append_left _ (by decide)
  exact absurd (Nat.isDigit_of_mem_toDigits (by decide) (by decide) hmem) (by decide)

/-- **No text is a start identity of both sides.** -/
theorem IsExtensionId.ne_thisProcessStartId {id : String} (h : IsExtensionId id)
    (platform : Platform) (p : OwnerProcess) : id ≠ thisProcessStartId platform p := by
  rcases thisProcessStartId_cases platform p with hown | hown <;> rw [hown]
  · cases h with
    | proc t =>
      -- a start time is written with digits, and the owner's tag goes on with a letter
      rw [show "proc-starttime-" = "proc-" ++ "starttime-" by decide, String.append_assoc]
      intro heq
      exact toDigits_ne_append t _ ((String.append_right_inj _).1 heq)
    | win s => exact append_ne_append 1 (by decide) (by decide) (by decide) _ _
    | ps s => exact append_ne_append 2 (by decide) (by decide) (by decide) _ _
    | unverified s => exact append_ne_append 1 (by decide) (by decide) (by decide) _ _
  · cases h with
    | proc t | win s | ps s | unverified s =>
      exact append_ne_append 1 (by decide) (by decide) (by decide) _ _

theorem isUnverified_thisProcessStartId (platform : Platform) (p : OwnerProcess) :
    isUnverified (thisProcessStartId platform p) = false := by
  rw [isUnverified, ← Bool.not_eq_true, List.isPrefixOf_iff_prefix]
  rintro ⟨t, ht⟩
  refine (IsExtensionId.unverified (String.ofList t)).ne_thisProcessStartId platform p ?_
  rw [← String.toList_inj, ← ht, String.toList_append, String.toList_ofList]

/-- The file of a record that an owner has written. -/
def ownerFile (platform : Platform) (text : ℚ → String) (p : OwnerProcess) (ttl : ℚ) (env : Env) :
    LeaseFile :=
  (LeaseRecord.ofOwner (newOwnerRecord (p.process platform ttl) env)).file text

/-- An owner is not confirmed: where the platform tells the start identity of the process at
    its pid, that is another text. -/
theorem verifyLeaseOwner_ownerFile (host : Host) (text : ℚ → String) (p : OwnerProcess) (ttl : ℚ)
    (env : Env) :
    verifyLeaseOwner host (ownerFile host.platform text p ttl env) p.pid =
      if (queryProcessStartId host p.pid).isSome then .mismatch else .unknown := by
  have hunverified := isUnverified_thisProcessStartId host.platform p
  cases hquery : queryProcessStartId host p.pid with
  | none =>
    simp [verifyLeaseOwner, ownerFile, p.pid_ne_zero, LeaseRecord.ofOwner, newOwnerRecord,
      OwnerProcess.process, hunverified, hquery]
  | some id =>
    have hne := (isExtensionId_of_query hquery).ne_thisProcessStartId host.platform p
    simp [verifyLeaseOwner, ownerFile, p.pid_ne_zero, LeaseRecord.ofOwner, newOwnerRecord,
      OwnerProcess.process, hunverified, hquery, hne]

/-- A record of the extension, as `read_lease` gives it; the nonce is only compared. -/
def LeaseRecord.toOwner (nonce : OwnerNonce) (r : LeaseRecord) : Cognis.LeaseRecord :=
  ⟨nonce, r.pid.num.toNat, r.processStartId, r.heartbeatAt, r.expiry⟩

theorem isExtensionId_of_reconcile {host : Host} {file : LeaseFile} {now ttlSeconds : ℚ}
    {nonce : String} {pid : ℕ} {w : LeaseRecord}
    (hw : reconcileOrphanLease host file now nonce pid ttlSeconds = some w) :
    IsExtensionId w.processStartId := by
  rw [reconcileOrphanLease] at hw
  split at hw
  · cases hw
  simp only at hw
  split at hw
  · cases hw
  cases hw
  cases hquery : queryProcessStartId host pid with
  | none => exact .unverified _
  | some id => exact isExtensionId_of_query hquery

/-- A process attaches to a record that was written for itself. -/
theorem acquireStep_reconciled {host : Host} {file : LeaseFile} {now ttlSeconds : ℚ}
    {nonce : String} {pid : ℕ} {w : LeaseRecord}
    (hw : reconcileOrphanLease host file now nonce pid ttlSeconds = some w) (p : OwnerProcess)
    (platform : Platform) (ttl : ℚ) (n : OwnerNonce) {env : Env} (hfault : env.fault = false)
    (hlive : env.now < w.expiry) :
    (acquireStep (p.process platform ttl) env (.record (w.toOwner n)) .read).2 =
      .inr (.attached (w.toOwner n)) := by
  have hne := (isExtensionId_of_reconcile hw).ne_thisProcessStartId platform p
  simp [acquireStep, Cognis.readLease, hfault, LeaseRecord.toOwner, Cognis.LeaseRecord.isLiveAt,
    hlive, OwnerProcess.process, hne]

/-! ## Agreement -/

/-- The process lives: it is the one that has its pid. -/
def Host.Lives (host : Host) (p : OwnerProcess) : Prop := host.startTime p.pid = some p.startTime

/-- The pid belongs to a process with another start time. -/
def Host.Reused (host : Host) (p : OwnerProcess) : Prop :=
  ∃ t, host.startTime p.pid = some t ∧ t ≠ p.startTime

/-- The platform tells a start identity for the pids that belong to a process. -/
def Host.Answers (host : Host) (pid : ℕ) : Prop :=
  (queryProcessStartId host pid).isSome = (host.startTime pid).isSome

/-- The two sides agree on a process and the record that it has written. -/
structure StartIdentityAgrees (host : Host) (text : ℚ → String) (p : OwnerProcess) (ttl : ℚ)
    (env : Env) : Prop where
  read : readLease (ownerFile host.platform text p ttl env) =
    some (.ofOwner (newOwnerRecord (p.process host.platform ttl) env))
  lives : host.Lives p →
    verifyLeaseOwner host (ownerFile host.platform text p ttl env) p.pid = .matched
  reused : verifyLeaseOwner host (ownerFile host.platform text p ttl env) p.pid = .mismatch ↔
    host.Reused p
  /-- the record that the extension writes for the process is its own to the process -/
  own : host.Lives p → ∀ file now nonce ttlSeconds,
    ∀ w ∈ reconcileOrphanLease host file now nonce p.pid ttlSeconds,
      ∀ n (env' : Env), env'.fault = false → env'.now < w.expiry →
        (acquireStep (p.process host.platform ttl) env' (.record (w.toOwner n)) .read).2 =
          .inl .write

theorem readLease_ownerFile (platform : Platform) (text : ℚ → String) (p : OwnerProcess) (ttl : ℚ)
    (env : Env) :
    readLease (ownerFile platform text p ttl env) =
      some (.ofOwner (newOwnerRecord (p.process platform ttl) env)) := readLease_file text _

/-- **The two sides agree on no process that lives**: its record is never confirmed, and it
    takes no record that the extension writes for it as its own. -/
theorem startIdentityAgrees_iff (host : Host) (text : ℚ → String) (p : OwnerProcess) (ttl : ℚ)
    (env : Env) (hanswers : host.Answers p.pid) :
    (StartIdentityAgrees host text p ttl env ↔ ¬ host.Lives p) ∧
      ∀ file now nonce ttlSeconds,
        ∀ w ∈ reconcileOrphanLease host file now nonce p.pid ttlSeconds,
          ∀ n (env' : Env), env'.fault = false → env'.now < w.expiry →
            (acquireStep (p.process host.platform ttl) env' (.record (w.toOwner n)) .read).2 =
              .inr (.attached (w.toOwner n)) := by
  refine ⟨⟨fun h hlives => ?_, fun hdead => ?_⟩, ?_⟩
  · have hmatched := h.lives hlives
    rw [verifyLeaseOwner_ownerFile] at hmatched
    split at hmatched <;> cases hmatched
  · refine ⟨readLease_ownerFile _ _ _ _ _, fun h => absurd h hdead, ?_, fun h => absurd h hdead⟩
    rw [verifyLeaseOwner_ownerFile, hanswers]
    cases hstart : host.startTime p.pid with
    | none => simp [Host.Reused, hstart]
    | some t =>
      have hne : t ≠ p.startTime := by
        rintro rfl
        exact hdead hstart
      simp [Host.Reused, hstart, hne]
  · intro file now nonce ttlSeconds w hw n env' hfault hlive
    exact acquireStep_reconciled hw p _ ttl n hfault hlive

/-- A line of the process `42` that was started at `t`, under the name `a) (b`. -/
def statSample (t : ℕ) : StatLine where
  pid := 42
  comm := "a) (b".toList
  before := List.replicate 19 ['0']
  starttime := t
  after := []
  before_length := rfl
  isStatField := by
    intro f hf
    rw [List.append_nil] at hf
    rw [List.eq_of_mem_replicate hf]
    exact ⟨by decide, by decide⟩

/-- A Linux on which the process `42` was started at `t`. -/
def linuxSample (t : ℕ) : Host where
  platform := .linux
  startTime pid := if pid = 42 then some t else none
  stat pid := if pid = 42 then some (statSample t) else none
  wmic _ := none
  cim _ := none
  ps _ := none
  stat_startTime := by
    intro pid l hl
    split at hl
    next hpid =>
      cases hl
      rw [if_pos hpid]
      rfl
    · cases hl

/-- The process `42` on it. -/
def ownerSample (t : ℕ) : OwnerProcess where
  pid := 42
  pid_ne_zero := by decide
  startTime := t
  stat := some (statSample t)
  nanos := 0
  stat_startTime := by
    rintro l ⟨⟩
    rfl

theorem linuxSample_answers (t : ℕ) : (linuxSample t).Answers 42 := by
  rw [Host.Answers, queryProcessStartId_linux rfl (by decide) rfl]
  rfl

/-- An owner that lives is not confirmed. -/
theorem startIdentityAgrees_iff_sample :
    ¬ StartIdentityAgrees (linuxSample 7) (fun _ => "") (ownerSample 7) 30 ⟨0, 0, 0, false⟩ :=
  fun h => (startIdentityAgrees_iff _ _ (ownerSample 7) 30 ⟨0, 0, 0, false⟩
    (linuxSample_answers 7)).1.1 h rfl

/-- The two sides agree on every process and every record. -/
def LeaseIdentityAgrees : Prop :=
  ∀ (host : Host) (text : ℚ → String) (p : OwnerProcess) (ttl : ℚ) (env : Env),
    host.Answers p.pid → StartIdentityAgrees host text p ttl env

/-- The process `42`, started at `7`, records `proc-starttime-7`, and the extension reads
    `proc-7`. -/
theorem not_leaseIdentityAgrees : ¬ LeaseIdentityAgrees := by
  intro h
  have hmatched := (h (linuxSample 7) (fun _ => "") (ownerSample 7) 30 ⟨0, 0, 0, false⟩
    (linuxSample_answers 7)).lives rfl
  have hverdict := verifyLeaseOwner_ownerFile (linuxSample 7) (fun _ => "") (ownerSample 7) 30
    ⟨0, 0, 0, false⟩
  rw [hmatched] at hverdict
  split at hverdict <;> cases hverdict

end Extension

end Cognis
