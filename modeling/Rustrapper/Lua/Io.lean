/-
# Reading and writing through the io library

`io.write` and `io.read` find their file, or fall back to the defaults of the
interpreter, and go through the host's callbacks. What is sent is kept piece by
piece, so that it can be compared with the arguments.

The arguments arrive, and the result tells so, exactly if the first of them is no
integer and none of the branches is taken that drop a number, lose its failure or
take the console for a file; and without a file `io.read` reads nothing exactly if
the host has nothing in file 0 (`io_routes_iff`).
-/
import Rustrapper.Codec.Text
import Rustrapper.Lua.Eval

namespace Rustrapper.Lua

/-! ### The host and the handles -/

/-- The host callbacks of the two functions, for a host with state `W`. -/
structure IoHost (W : Type) where
  ioWrite : Option (ℕ → List UInt8 → W → W × Bool)
  /-- handle, format and count; the answer is what was put into the buffer -/
  ioRead : Option (ℕ → ℕ → ℕ → W → W × Option (List UInt8))

/-- `fmt_float`, which writes something for every number. -/
structure FloatText where
  text : Float → List UInt8
  ne_nil : ∀ f, text f ≠ []

/-- `n as u8`. -/
def asU8 (n : Int64) : ℕ := (n.toInt % 256).toNat

/-- `raw_get` of a string key. -/
def fieldOf (h : Heap) (tid : ℕ) (key : StrRef) : Value :=
  ((h.tbls[tid]?).map fun t => slotGet t.slots (.str key)).getD .nil

/-- `s.intern(b"id").unwrap_or(0)`. -/
def idKey (h : Heap) : StrRef × Heap :=
  match h.intern (bytesOf "id") with
  | .ok p => p
  | .error _ => (0, h)

/-- `io_handle`. -/
def ioHandle (h : Heap) : Value → Option ℕ × Heap
  | .num n => (some (asU8 n), h)
  | .table tid =>
    let (key, h) := idKey h
    match fieldOf h tid key with
    | .num n => (some (asU8 n), h)
    | _ => (none, h)
  | _ => (none, h)

/-! ### Writing -/

/-- What was given to `io_write`, and whether it was accepted. -/
structure Offer where
  id : ℕ
  bytes : List UInt8
  accepted : Bool
  deriving DecidableEq

/-- The host's state, and what has been sent so far. -/
structure Out (W : Type) where
  world : W
  console : List UInt8
  pieces : List Offer

section Writing
variable {W : Type} (host : IoHost W) (fmt : FloatText) (h : Heap)

def toConsole (bs : List UInt8) (o : Out W) : Out W := { o with console := o.console ++ bs }

def toFile (f : ℕ → List UInt8 → W → W × Bool) (i : ℕ) (bs : List UInt8) (o : Out W) : Out W × Bool :=
  let (w, accepted) := f i bs o.world
  ({ o with world := w, pieces := o.pieces ++ [⟨i, bs, accepted⟩] }, accepted)

/-- The branches for a string: what was sent, and whether it was accepted. -/
def writeStr (target : Option ℕ) (bs : List UInt8) (o : Out W) : Out W × Bool :=
  match host.ioWrite, target with
  | some f, some i => toFile f i bs o
  | some _, none => (toConsole bs o, true)
  | none, some _ => (toConsole bs o, true)
  | none, none => (toConsole bs o, true)

/-- The branches for the digits of a number. -/
def writeNum (target : Option ℕ) (bs : List UInt8) (o : Out W) : Out W :=
  match host.ioWrite, target with
  | some f, some i => (toFile f i bs o).1
  | some _, none => o
  | none, some _ => toConsole bs o
  | none, none => o

/-- The loop over the arguments. -/
def writeArgs (target : Option ℕ) : List Value → Bool → Out W → Except String Bool × Out W
  | [], ok, o => (.ok ok, o)
  | .str r :: vs, ok, o =>
    let (o, accepted) := writeStr host target (h.strBytes r) o
    writeArgs target vs (ok && accepted) o
  | .num n :: vs, ok, o => writeArgs target vs ok (writeNum host target (itoa n) o)
  | .float x :: vs, ok, o => writeArgs target vs ok (writeNum host target (fmt.text x) o)
  | _ :: _, _, o => (.error "io.write expects string or number", o)

/-- The target and the arguments behind it: a first argument that is a handle is the target. -/
def writeTarget (default : Option ℕ) (args : List Value) : Option ℕ × List Value × Heap :=
  match args with
  | [] => (default, [], h)
  | v :: vs =>
    match ioHandle h v with
    | (some i, h) => (some i, vs, h)
    | (none, h) => (default, v :: vs, h)

/-- `io.write`. -/
def ioWrite (default : Option ℕ) (args : List Value) (o : Out W) : Except String Value × Out W :=
  let (target, data, h) := writeTarget h default args
  let (r, o) := writeArgs host fmt h target data true o
  (r.map fun ok => if ok then .bool true else .nil, o)

end Writing

/-! ### Reading -/

/-- `str::parse::<usize>` with `unwrap_or(0)`, where `usize` has `bits` bits. -/
def parseUsize (bits : ℕ) (bs : List UInt8) : ℕ :=
  let ds := if bs.head? = some 0x2B then bs.tail else bs
  if ds ≠ [] ∧ ds.all Codec.isDecimal ∧ Codec.decimalFrom 0 ds < 2 ^ bits then Codec.decimalFrom 0 ds else 0

/-- A format's code and count. Bytes that are no UTF-8 count as `*l`, as they do here. -/
def formatCode (bits : ℕ) (bs : List UInt8) : ℕ × ℕ :=
  if bs = bytesOf "*a" ∨ bs = bytesOf "*A" ∨ bs = bytesOf "*all" then (0, 0)
  else if bs = bytesOf "*l" ∨ bs = bytesOf "*L" ∨ bs = bytesOf "*line" then (1, 0)
  else
    let n := parseUsize bits bs
    if 0 < n then (2, n) else (1, 0)

section Reading
variable {W : Type} (host : IoHost W) (bits : ℕ)

/-- The codes of the first `room` formats. -/
def formatCodes (h : Heap) : ℕ → List Value → Except String (List (ℕ × ℕ))
  | 0, _ => .ok []
  | _, [] => .ok []
  | room + 1, .str r :: vs => (formatCodes h room vs).map (formatCode bits (h.strBytes r) :: ·)
  | room + 1, .num n :: vs => (formatCodes h room vs).map ((2, (n.toInt % 2 ^ bits).toNat) :: ·)
  | _, _ => .error "io.read expects string or number formats"

/-- The formats, of which there is at least one. -/
def formatsOf (h : Heap) (args : List Value) : Except String (List (ℕ × ℕ)) :=
  (formatCodes bits h 4 args).map fun fs => if fs = [] then [(1, 0)] else fs

/-- One read through the callback. -/
def readOnce (id : ℕ) (p : ℕ × ℕ) (w : W) : W × Option (List UInt8) :=
  match host.ioRead with
  | some f => f id p.1 p.2 w
  | none => (w, none)

/-- The loop over the formats. -/
def readAll (id : ℕ) : List (ℕ × ℕ) → Heap → W → Except String (List Value) × Heap × W
  | [], h, w => (.ok [], h, w)
  | p :: fs, h, w =>
    match readOnce host id p w with
    | (w, none) => (.ok [.nil], h, w)
    | (w, some bs) =>
      match h.intern bs with
      | .error m => (.error m, h, w)
      | .ok (r, h) =>
        let (vs, h, w) := readAll id fs h w
        (vs.map (.str r :: ·), h, w)

/-- The file argument and the formats behind it. -/
def readTarget (h : Heap) : List Value → Option ℕ × List Value × Heap
  | .table tid :: vs => ((ioHandle h (.table tid)).1, vs, (ioHandle h (.table tid)).2)
  | args => (none, args, h)

/-- `io.read`. -/
def ioRead (h : Heap) (default : Option ℕ) (args : List Value) (w : W) : Except String (List Value) × Heap × W :=
  let (file, args, h) := readTarget h args
  match formatsOf bits h args with
  | .error m => (.error m, h, w)
  | .ok fs => readAll host ((file.or default).getD 0) fs h w

end Reading

/-! ### Where the bytes belong -/

/-- An argument that is a string or a number. -/
inductive Datum where
  | str (r : StrRef)
  | num (n : Int64)
  | float (x : Float)

def Datum.value : Datum → Value
  | .str r => .str r
  | .num n => .num n
  | .float x => .float x

/-- The rendering of an argument. -/
def Datum.text (fmt : FloatText) (h : Heap) : Datum → List UInt8
  | .str r => h.strBytes r
  | .num n => itoa n
  | .float x => fmt.text x

def Datum.isStr : Datum → Bool
  | .str _ => true
  | _ => false

section Routes
variable {W : Type}

/-- The bytes went to the target and nowhere else, and the result is `true`
exactly if all of them were accepted. -/
def Sent (target : Option ℕ) (bs : List UInt8) (o : Out W) (r : Except String Value × Out W) : Prop :=
  match target with
  | none => r.2.console = o.console ++ bs ∧ r.2.pieces = o.pieces ∧ r.1 = .ok (.bool true)
  | some i => r.2.console = o.console ∧ ∃ sent, r.2.pieces = o.pieces ++ sent ∧ (∀ p ∈ sent, p.id = i) ∧
      sent.flatMap Offer.bytes = bs ∧ (r.1 = .ok (.bool true) ↔ ∀ p ∈ sent, p.accepted = true)

/-- A table with the number of its handle under `id`. -/
structure FileTable (h : Heap) where
  tid : ℕ
  key : StrRef
  n : Int64
  known : h.intern (bytesOf "id") = .ok (key, h)
  field : fieldOf h tid key = .num n

def FileTable.id {h : Heap} (f : FileTable h) : ℕ := asU8 f.n

variable (host : IoHost W) (fmt : FloatText) (h : Heap)

/-- What the host is given for handle `i`, piece by piece, and what it makes of it. -/
def offered (f : ℕ → List UInt8 → W → W × Bool) (i : ℕ) : List Datum → W → List (Datum × Offer)
  | [], _ => []
  | a :: args, w => (a, ⟨i, a.text fmt h, (f i (a.text fmt h) w).2⟩) :: offered f i args (f i (a.text fmt h) w).1

/-- On the console no argument is a number; in a file no number is refused unless
a string is, too; and without a callback nothing is to be written to a file. -/
def TargetOk (target : Option ℕ) (args : List Datum) (w : W) : Prop :=
  match target, host.ioWrite with
  | none, _ => ∀ a ∈ args, a.isStr = true
  | some i, some f => (∃ p ∈ offered fmt h f i args w, p.2.accepted = false) →
      ∃ p ∈ offered fmt h f i args w, p.1.isStr = true ∧ p.2.accepted = false
  | some _, none => args.flatMap (Datum.text fmt h) = []

/-- No file is named in the arguments of `io.read`. -/
def NoFile (args : List Value) : Prop := (readTarget h args).1 = none

/-- Without a file, `io.read` returns `nil` and nothing happens to the files. -/
def ReadsNothing (bits : ℕ) (args : List Value) (w : W) : Prop :=
  NoFile h args → (ioRead host bits h none args w).1 = .ok [.nil] ∧ (ioRead host bits h none args w).2.2 = w

/-- The formats are formats, and the host answers the first of them with nothing for file 0. -/
def NothingInFileZero (bits : ℕ) (args : List Value) (w : W) : Prop :=
  NoFile h args → ∃ p fs, formatsOf bits (readTarget h args).2.2 (readTarget h args).2.1 = .ok (p :: fs) ∧
    readOnce host 0 p w = (w, none)

/-! ### The loop over the arguments -/

variable {host fmt h}

/-- What one argument does. -/
def send (host : IoHost W) (fmt : FloatText) (h : Heap) (target : Option ℕ) (a : Datum) (o : Out W) : Out W × Bool :=
  if a.isStr then writeStr host target (a.text fmt h) o else (writeNum host target (a.text fmt h) o, true)

theorem writeArgs_cons (target : Option ℕ) (a : Datum) (vs : List Value) (ok : Bool) (o : Out W) :
    writeArgs host fmt h target (a.value :: vs) ok o =
      writeArgs host fmt h target vs (ok && (send host fmt h target a o).2) (send host fmt h target a o).1 := by
  cases a with
  | str r => rfl
  | num n => exact congrArg (writeArgs host fmt h target vs · _) (Bool.and_true ok).symm
  | float x => exact congrArg (writeArgs host fmt h target vs · _) (Bool.and_true ok).symm

theorem send_console (hn : host.ioWrite = none) (i : ℕ) (a : Datum) (o : Out W) :
    send host fmt h (some i) a o = (toConsole (a.text fmt h) o, true) := by
  simp [send, writeStr, writeNum, hn]

theorem send_default (a : Datum) (o : Out W) :
    send host fmt h none a o = (if a.isStr then toConsole (a.text fmt h) o else o, true) := by
  cases hc : host.ioWrite <;> cases ha : a.isStr <;> simp [send, writeStr, writeNum, hc, ha]

theorem send_file {f : ℕ → List UInt8 → W → W × Bool} (hf : host.ioWrite = some f) (i : ℕ) (a : Datum) (o : Out W) :
    send host fmt h (some i) a o =
      ((toFile f i (a.text fmt h) o).1, !a.isStr || (f i (a.text fmt h) o.world).2) := by
  cases ha : a.isStr <;> simp [send, writeStr, writeNum, hf, ha, toFile]

/-- Without a callback, what is for a file goes to the console. -/
theorem writeArgs_console (hn : host.ioWrite = none) (i : ℕ) : ∀ (args : List Datum) (ok : Bool) (o : Out W),
    writeArgs host fmt h (some i) (args.map Datum.value) ok o =
      (.ok ok, toConsole (args.flatMap (Datum.text fmt h)) o)
  | [], ok, o => by simp [writeArgs, toConsole]
  | a :: args, ok, o => by
    rw [List.map_cons, writeArgs_cons, send_console hn, writeArgs_console hn i args]
    simp [toConsole]

/-- **Without a target, the strings go to the console.** -/
theorem writeArgs_default : ∀ (args : List Datum) (ok : Bool) (o : Out W),
    writeArgs host fmt h none (args.map Datum.value) ok o =
      (.ok ok, toConsole ((args.filter Datum.isStr).flatMap (Datum.text fmt h)) o)
  | [], ok, o => by simp [writeArgs, toConsole]
  | a :: args, ok, o => by
    rw [List.map_cons, writeArgs_cons, send_default, writeArgs_default args, List.filter_cons]
    by_cases ha : a.isStr <;> simp [ha, toConsole]

/-- **With a target, every piece is offered to the host**, and a refused string is noted. -/
theorem writeArgs_file {f : ℕ → List UInt8 → W → W × Bool} (hf : host.ioWrite = some f) (i : ℕ) :
    ∀ (args : List Datum) (ok : Bool) (o : Out W), ∃ w,
      writeArgs host fmt h (some i) (args.map Datum.value) ok o =
        (.ok (ok && (offered fmt h f i args o.world).all fun p => !p.1.isStr || p.2.accepted),
          ⟨w, o.console, o.pieces ++ (offered fmt h f i args o.world).map Prod.snd⟩)
  | [], ok, o => ⟨o.world, by simp [writeArgs, offered]⟩
  | a :: args, ok, o => by
    obtain ⟨w, hw⟩ := writeArgs_file hf i args (ok && (!a.isStr || (f i (a.text fmt h) o.world).2))
      (toFile f i (a.text fmt h) o).1
    refine ⟨w, ?_⟩
    rw [List.map_cons, writeArgs_cons, send_file hf, hw]
    simp [offered, toFile, Bool.and_assoc]

theorem flatMap_offered (f : ℕ → List UInt8 → W → W × Bool) (i : ℕ) : ∀ (args : List Datum) (w : W),
    ((offered fmt h f i args w).map Prod.snd).flatMap Offer.bytes = args.flatMap (Datum.text fmt h)
  | [], _ => rfl
  | a :: args, w => by simp [offered, flatMap_offered f i args]

theorem offered_id (f : ℕ → List UInt8 → W → W × Bool) (i : ℕ) : ∀ (args : List Datum) (w : W),
    ∀ p ∈ offered fmt h f i args w, p.2.id = i
  | [], _ => by simp [offered]
  | a :: args, w => by
    intro p hp
    rcases List.mem_cons.mp hp with rfl | hp
    · rfl
    · exact offered_id f i args _ p hp

/-! ### When the bytes arrive -/

theorem itoa_ne_nil (n : Int64) : itoa n ≠ [] := by
  have hdigits : ∀ k, natDigits k ≠ [] := by
    intro k
    rw [natDigits, Ne, List.map_eq_nil_iff]
    exact Nat.toDigits_ne_nil
  unfold itoa
  split_ifs
  · exact List.cons_ne_nil _ _
  · exact hdigits _

theorem text_ne_nil {a : Datum} (ha : a.isStr = false) : a.text fmt h ≠ [] := by
  cases a with
  | str r => cases ha
  | num n => exact itoa_ne_nil n
  | float x => exact fmt.ne_nil x

theorem length_filter_text (args : List Datum) :
    ((args.filter Datum.isStr).flatMap (Datum.text fmt h)).length ≤ (args.flatMap (Datum.text fmt h)).length :=
  (List.filter_sublist.flatMap _).length_le

/-- Leaving out what is no string leaves out bytes. -/
theorem filter_text (args : List Datum) :
    (args.filter Datum.isStr).flatMap (Datum.text fmt h) = args.flatMap (Datum.text fmt h) ↔
      ∀ a ∈ args, a.isStr = true := by
  induction args with
  | nil => simp
  | cons a args ih =>
    rw [List.forall_mem_cons, List.filter_cons, List.flatMap_cons]
    by_cases ha : a.isStr = true
    · rw [if_pos ha, List.flatMap_cons, List.append_cancel_left_eq, ih]
      simp [ha]
    · have hpos := List.length_pos_iff.mpr (@text_ne_nil fmt h a (eq_false_of_ne_true ha))
      have hle := @length_filter_text fmt h args
      rw [if_neg ha]
      constructor
      · intro heq
        have hlen := congrArg List.length heq
        rw [List.length_append] at hlen
        omega
      · intro hall
        exact absurd hall.1 ha

/-- What the loop's end is to the script. -/
def result (r : Except String Bool × Out W) : Except String Value × Out W :=
  (r.1.map fun ok => if ok then .bool true else .nil, r.2)

theorem result_true (ok : Bool) (o : Out W) : (result (.ok ok, o)).1 = .ok (.bool true) ↔ ok = true := by
  cases ok <;> simp [result, Except.map]

theorem sent_default (args : List Datum) (o : Out W) :
    Sent none (args.flatMap (Datum.text fmt h)) o
      (result (writeArgs host fmt h none (args.map Datum.value) true o)) ↔ ∀ a ∈ args, a.isStr = true := by
  rw [writeArgs_default, ← @filter_text fmt h args]
  simp [Sent, result, toConsole, Except.map]

theorem sent_console (hn : host.ioWrite = none) (i : ℕ) (args : List Datum) (o : Out W) :
    Sent (some i) (args.flatMap (Datum.text fmt h)) o
      (result (writeArgs host fmt h (some i) (args.map Datum.value) true o)) ↔
        args.flatMap (Datum.text fmt h) = [] := by
  rw [writeArgs_console hn]
  constructor
  · rintro ⟨hconsole, -⟩
    exact List.append_right_eq_self.mp hconsole
  · intro hempty
    rw [hempty]
    exact ⟨List.append_nil _, [], (List.append_nil _).symm, by simp, rfl, by simp [result, Except.map]⟩

theorem sent_file {f : ℕ → List UInt8 → W → W × Bool} (hf : host.ioWrite = some f) (i : ℕ) (args : List Datum)
    (o : Out W) :
    Sent (some i) (args.flatMap (Datum.text fmt h)) o
      (result (writeArgs host fmt h (some i) (args.map Datum.value) true o)) ↔
        ((∃ p ∈ offered fmt h f i args o.world, p.2.accepted = false) →
          ∃ p ∈ offered fmt h f i args o.world, p.1.isStr = true ∧ p.2.accepted = false) := by
  obtain ⟨w, hw⟩ := @writeArgs_file W host fmt h f hf i args true o
  have hbytes := @flatMap_offered W fmt h f i args o.world
  have hid := @offered_id W fmt h f i args o.world
  rw [hw, Bool.true_and]
  generalize offered fmt h f i args o.world = ps at hbytes hid
  have htrue := @result_true W (ps.all fun p => !p.1.isStr || p.2.accepted) ⟨w, o.console, o.pieces ++ ps.map Prod.snd⟩
  constructor
  · rintro ⟨-, sent, hsent, -, -, hresult⟩ ⟨p, hp, hrefused⟩
    obtain rfl := List.append_cancel_left hsent
    by_contra hnone
    push Not at hnone
    have hall := hresult.mp (htrue.mpr (List.all_eq_true.mpr fun q hq => ?_)) p.2 (List.mem_map_of_mem hp)
    · rw [hrefused] at hall
      cases hall
    · have hq := hnone q hq
      cases hstr : q.1.isStr with
      | false => rfl
      | true => simpa using hq hstr
  · intro hcond
    refine ⟨rfl, ps.map Prod.snd, rfl, ?_, hbytes, htrue.trans ?_⟩
    · intro p hp
      obtain ⟨q, hq, rfl⟩ := List.mem_map.mp hp
      exact hid q hq
    · rw [List.all_eq_true, List.forall_mem_map]
      constructor
      · intro hall p hp
        by_contra hrefused
        obtain ⟨q, hq, hstr, hno⟩ := hcond ⟨p, hp, eq_false_of_ne_true hrefused⟩
        have hyes := hall q hq
        rw [hstr, hno] at hyes
        cases hyes
      · intro hall p hp
        rw [hall p hp, Bool.or_true]

/-- **When the bytes of the arguments arrive at a target.** -/
theorem sent_iff (target : Option ℕ) (args : List Datum) (o : Out W) :
    Sent target (args.flatMap (Datum.text fmt h)) o
      (result (writeArgs host fmt h target (args.map Datum.value) true o)) ↔ TargetOk host fmt h target args o.world := by
  rcases target with _ | i
  · rw [sent_default, TargetOk]
  cases hf : host.ioWrite with
  | none =>
    rw [sent_console hf]
    unfold TargetOk
    rw [hf]
  | some f =>
    rw [sent_file hf]
    unfold TargetOk
    rw [hf]

/-- A number in front takes the target's place and is lost. -/
theorem not_sent_of_isInt (d : Option ℕ) (n : Int64) (args : List Datum) (o : Out W) :
    ¬ Sent d ((Datum.num n :: args).flatMap (Datum.text fmt h)) o
      (result (writeArgs host fmt h (some (asU8 n)) (args.map Datum.value) true o)) := by
  have hpos := List.length_pos_iff.mpr (itoa_ne_nil n)
  have hshorter : args.flatMap (Datum.text fmt h) ≠ itoa n ++ args.flatMap (Datum.text fmt h) := by
    intro heq
    have hlen := congrArg List.length heq
    rw [List.length_append] at hlen
    omega
  have hsome : itoa n ++ args.flatMap (Datum.text fmt h) ≠ [] := by
    intro heq
    exact itoa_ne_nil n (List.append_eq_nil_iff.mp heq).1
  rw [List.flatMap_cons]
  intro hsent
  cases hf : host.ioWrite with
  | none =>
    rw [writeArgs_console hf] at hsent
    rcases d with _ | i
    · exact hshorter (List.append_cancel_left hsent.1)
    · obtain ⟨-, sent, hpieces, -, hbytes, -⟩ := hsent
      rw [List.self_eq_append_right.mp hpieces] at hbytes
      exact hsome hbytes.symm
  | some f =>
    obtain ⟨w, hw⟩ := @writeArgs_file W host fmt h f hf (asU8 n) args true o
    rw [hw] at hsent
    rcases d with _ | i
    · exact hsome (List.append_right_eq_self.mp hsent.1.symm)
    · obtain ⟨-, sent, hpieces, -, hbytes, -⟩ := hsent
      rw [← List.append_cancel_left hpieces, flatMap_offered] at hbytes
      exact hshorter hbytes

/-! ### The two functions -/

/-- The first argument is no integer. -/
def FirstOk (args : List Datum) : Prop := ∀ n, args.head? ≠ some (.num n)

theorem ioWrite_data (d : Option ℕ) (args : List Datum) (hfirst : FirstOk args) (o : Out W) :
    ioWrite host fmt h d (args.map Datum.value) o = result (writeArgs host fmt h d (args.map Datum.value) true o) := by
  cases args with
  | nil => rfl
  | cons a args =>
    cases a with
    | str r => rfl
    | num n => exact absurd rfl (hfirst n)
    | float x => rfl

theorem plain_sent_iff (d : Option ℕ) (args : List Datum) (o : Out W) :
    Sent d (args.flatMap (Datum.text fmt h)) o (ioWrite host fmt h d (args.map Datum.value) o) ↔
      FirstOk args ∧ TargetOk host fmt h d args o.world := by
  by_cases hfirst : FirstOk args
  · rw [ioWrite_data d args hfirst, sent_iff, and_iff_right hfirst]
  · have hnum := hfirst
    unfold FirstOk at hnum
    push Not at hnum
    obtain ⟨n, hn⟩ := hnum
    obtain ⟨rest, rfl⟩ := List.head?_eq_some_iff.mp hn
    constructor
    · intro hsent
      exact absurd hsent (not_sent_of_isInt d n rest o)
    · intro hok
      exact absurd hok.1 hfirst

theorem FileTable.ioHandle (f : FileTable h) : ioHandle h (.table f.tid) = (some f.id, h) := by
  have hkey : idKey h = (f.key, h) := by rw [idKey, f.known]
  unfold Lua.ioHandle
  dsimp only
  rw [hkey]
  dsimp only
  rw [f.field]
  rfl

theorem file_sent_iff (d : Option ℕ) (f : FileTable h) (args : List Datum) (o : Out W) :
    Sent (some f.id) (args.flatMap (Datum.text fmt h)) o
      (ioWrite host fmt h d (.table f.tid :: args.map Datum.value) o) ↔
        TargetOk host fmt h (some f.id) args o.world := by
  rw [← sent_iff]
  unfold ioWrite writeTarget
  dsimp only
  rw [f.ioHandle]
  rfl

theorem formatsOf_ne_nil {bits : ℕ} {args : List Value} {fs : List (ℕ × ℕ)} (hfs : formatsOf bits h args = .ok fs) :
    ∃ p ps, fs = p :: ps := by
  unfold formatsOf at hfs
  cases hcodes : formatCodes bits h 4 args with
  | error m =>
    rw [hcodes] at hfs
    cases hfs
  | ok codes =>
    rw [hcodes] at hfs
    cases hfs
    dsimp only
    split_ifs with hnil
    · exact ⟨_, _, rfl⟩
    · exact List.exists_cons_of_ne_nil hnil

/-- Only a read that answers nothing gives `nil` alone. -/
theorem readAll_nil {id : ℕ} {p : ℕ × ℕ} {fs : List (ℕ × ℕ)} {w : W} :
    ((readAll host id (p :: fs) h w).1 = .ok [.nil] ∧ (readAll host id (p :: fs) h w).2.2 = w) ↔
      readOnce host id p w = (w, none) := by
  unfold readAll
  rcases readOnce host id p w with ⟨w', _ | bs⟩
  · simp
  · dsimp only
    rcases h.intern bs with m | ⟨r, h'⟩
    · simp
    · cases hrest : (readAll host id fs h' w').1 <;> simp [Except.map, hrest]

/-- **When nothing is read without a file.** -/
theorem readsNothing_iff (bits : ℕ) (args : List Value) (w : W) :
    ReadsNothing host h bits args w ↔ NothingInFileZero host h bits args w := by
  apply imp_congr_right
  intro hfile
  unfold NoFile at hfile
  unfold ioRead
  generalize readTarget h args = t at hfile ⊢
  obtain ⟨file, formats, h'⟩ := t
  subst hfile
  dsimp only
  rw [Option.or_none, Option.getD_none]
  cases hfs : formatsOf bits h' formats with
  | error m => simp
  | ok fs =>
    obtain ⟨p, ps, rfl⟩ := formatsOf_ne_nil hfs
    dsimp only
    rw [readAll_nil]
    constructor
    · intro hread
      exact ⟨p, ps, rfl, hread⟩
    · rintro ⟨p', ps', heq, hread⟩
      cases heq
      exact hread

/-- **The routes of the io library**: when `io.write` and the method `write` of a
file reach the right place and report it, and when `io.read` leaves the files alone. -/
theorem io_routes_iff (host : IoHost W) (fmt : FloatText) (h : Heap) (bits : ℕ) :
    (∀ (d : Option ℕ) (args : List Datum) (o : Out W),
      Sent d (args.flatMap (Datum.text fmt h)) o (ioWrite host fmt h d (args.map Datum.value) o) ↔
        FirstOk args ∧ TargetOk host fmt h d args o.world) ∧
    (∀ (d : Option ℕ) (f : FileTable h) (args : List Datum) (o : Out W),
      Sent (some f.id) (args.flatMap (Datum.text fmt h)) o
        (ioWrite host fmt h d (.table f.tid :: args.map Datum.value) o) ↔
          TargetOk host fmt h (some f.id) args o.world) ∧
    (∀ (args : List Value) (w : W),
      ReadsNothing host h bits args w ↔ NothingInFileZero host h bits args w) :=
  ⟨plain_sent_iff, file_sent_iff, readsNothing_iff bits⟩

end Routes

/-! ### A host with one file -/

/-- A host with one file, number 0, which accepts everything. -/
def oneFileHost : IoHost (List UInt8) where
  ioWrite := some fun _ bs w => (w ++ bs, true)
  ioRead := some fun id _ _ w => if id = 0 ∧ w ≠ [] then ([], some w) else (w, none)

/-- A text for every float. -/
def someText : FloatText := ⟨fun _ => [0x30], fun _ => List.cons_ne_nil _ _⟩

/-- A heap in which `a` is a string. -/
def heapA : Heap where
  strregs := [(0, [0x61])]
  strNext := 1

/-- `io.write("a", 5)` leaves out the 5, `io.write(5)` writes nothing, and
`io.read()` takes what is in file 0. -/
theorem routes_missed :
    ¬ Sent none ([Datum.str (strref 0 1), .num 5].flatMap (Datum.text someText heapA)) ⟨[], [], []⟩
      (ioWrite oneFileHost someText heapA none ([Datum.str (strref 0 1), .num 5].map Datum.value) ⟨[], [], []⟩) ∧
    ¬ Sent none ([Datum.num 5].flatMap (Datum.text someText heapA)) ⟨[], [], []⟩
      (ioWrite oneFileHost someText heapA none ([Datum.num 5].map Datum.value) ⟨[], [], []⟩) ∧
    ¬ ReadsNothing oneFileHost heapA 64 [] [0x61] := by
  refine ⟨?_, ?_, ?_⟩
  · rw [plain_sent_iff]
    rintro ⟨-, htarget⟩
    exact absurd (htarget (.num 5) (by simp)) (by decide)
  · rw [plain_sent_iff]
    rintro ⟨hfirst, -⟩
    exact hfirst 5 rfl
  · intro h
    exact absurd (h rfl).2 (by decide)

end Rustrapper.Lua
