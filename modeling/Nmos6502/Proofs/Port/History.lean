import Nmos6502.Proofs.Port.Recorded

/-! # The history of the port

What the registers of the port hold depends on the uses that the port has seen since power on and on
nothing else. A history lists them, the latest first. A reset clears all registers but the level
last driven on the lines, which is that of the latest write that left a line an output. -/

namespace Nmos6502

variable {σ : Type}

/-! ### Bits of a byte -/

theorem bit_and (n : Nat) (a b : UInt8) : bit n (a &&& b) = (bit n a && bit n b) := by
  rw [bit, bit, bit, UInt8.toNat_and, Nat.testBit_and]

theorem bit_or (n : Nat) (a b : UInt8) : bit n (a ||| b) = (bit n a || bit n b) := by
  rw [bit, bit, bit, UInt8.toNat_or, Nat.testBit_or]

theorem bit_not {n : Nat} (h : n < 8) (a : UInt8) : bit n (~~~a) = !bit n a := by
  show (~~~a).toBitVec.toNat.testBit n = !a.toBitVec.toNat.testBit n
  rw [UInt8.toBitVec_not, BitVec.testBit_toNat, BitVec.testBit_toNat, BitVec.getLsbD_not]
  simp [h]

theorem bit_select {n : Nat} (h : n < 8) (mask a b : UInt8) :
    bit n ((a &&& mask) ||| (b &&& ~~~mask)) = if bit n mask then bit n a else bit n b := by
  rw [bit_or, bit_and, bit_and, bit_not h]
  cases bit n mask <;> simp

/-! ### Registers as functions of the history -/

abbrev PortHistory := List PortUse

def PortUse.isWrite : PortUse → Bool
  | writeDirection _ | writeOutput _ => true
  | readDirection | readOutput _ | reset => false

namespace PortHistory

def direction : PortHistory → UInt8
  | [] | .reset :: _ => 0
  | .writeDirection v :: _ => v
  | .readDirection :: uses | .readOutput _ :: uses | .writeOutput _ :: uses => direction uses

def output : PortHistory → UInt8
  | [] | .reset :: _ => 0
  | .writeOutput v :: _ => v
  | .readDirection :: uses | .readOutput _ :: uses | .writeDirection _ :: uses => output uses

/-- The level at the latest read of the output register. -/
def input : PortHistory → UInt8
  | [] | .reset :: _ => 0
  | .readOutput level :: _ => level
  | .readDirection :: uses | .writeDirection _ :: uses | .writeOutput _ :: uses => input uses

/-- The level of line `n` at the latest write that left it an output. -/
def drive (n : Nat) : PortHistory → Bool
  | [] => false
  | use :: uses =>
    if use.isWrite = true ∧ bit n (direction (use :: uses)) = true then
      bit n (output (use :: uses))
    else drive n uses

end PortHistory

namespace IoPort

/-- The port has the registers that come of the history. -/
structure Recalls (variant : Variant) (uses : PortHistory) (port : IoPort) : Prop where
  direction : port.direction = uses.direction
  output : port.output = uses.output
  input : port.input = uses.input
  pins (n : Nat) : n < 8 →
    bit n port.pins = if bit n port.direction then bit n port.output else bit n port.input
  drive (n : Nat) : n < 8 → bit n port.drive = uses.drive n
  pullup : port.pullup = variant.pullup
  floating : port.floating = variant.floating

theorem recalls_powerOn (variant : Variant) : Recalls variant [] (powerOn variant) where
  direction := rfl
  output := rfl
  input := rfl
  pins _ _ := (ite_self _).symm
  drive n _ := Nat.zero_testBit n
  pullup := rfl
  floating := rfl

namespace Recalls

variable {variant : Variant} {uses : PortHistory} {port : IoPort}

theorem drive_write (h : Recalls variant uses port) (use : PortUse) (hwrite : use.isWrite = true)
    (hdirection : (port.use use).direction = PortHistory.direction (use :: uses))
    (houtput : (port.use use).output = PortHistory.output (use :: uses))
    (hdrive : (port.use use).drive = ((port.use use).output &&& (port.use use).direction) |||
      (port.drive &&& ~~~(port.use use).direction)) {n : Nat} (hn : n < 8) :
    bit n (port.use use).drive = PortHistory.drive n (use :: uses) := by
  rw [hdrive, bit_select hn, hdirection, houtput, h.drive n hn]
  simp [PortHistory.drive, hwrite]

theorem use (h : Recalls variant uses port) (use : PortUse) :
    Recalls variant (use :: uses) (port.use use) := by
  have hpins : ∀ q : IoPort, ∀ n < 8, bit n q.setLevel.pins =
      if bit n q.setLevel.direction then bit n q.setLevel.output else bit n q.setLevel.input :=
    fun q n hn => bit_select hn q.direction q.output q.input
  cases use with
  | readDirection =>
    exact ⟨h.direction, h.output, h.input, h.pins, h.drive, h.pullup, h.floating⟩
  | readOutput level =>
    exact ⟨h.direction, h.output, rfl, hpins _, h.drive, h.pullup, h.floating⟩
  | writeDirection v =>
    exact ⟨rfl, h.output, h.input, hpins _,
      fun _ => h.drive_write (.writeDirection v) rfl rfl h.output rfl, h.pullup, h.floating⟩
  | writeOutput v =>
    exact ⟨h.direction, rfl, h.input, hpins _,
      fun _ => h.drive_write (.writeOutput v) rfl h.direction rfl rfl, h.pullup, h.floating⟩
  | reset =>
    exact ⟨rfl, rfl, rfl, fun n _ => (ite_self _).symm, h.drive, h.pullup, h.floating⟩

end Recalls

/-! ### Ports that have a history -/

/-- The port has been built for the variant and then used in this way, with any host on its lines.
-/
inductive Lived (host : PortHost σ) (variant : Variant) : PortHistory → IoPort → Prop
  | powerOn : Lived host variant [] (powerOn variant)
  | reset {uses : PortHistory} {port : IoPort} :
    Lived host variant uses port → Lived host variant (.reset :: uses) port.reset
  | access {uses : PortHistory} {port after : IoPort} {access answer : Pins} {s t : σ} :
    Lived host variant uses port → port.request host access s = .ok (answer, after, t) →
      Lived host variant (.ofAccess access (host.portInput s).1 :: uses) after

theorem request_eq (host : PortHost σ) {access : Pins} (h : access.isPortAccess = true)
    (port : IoPort) (s : σ) :
    ∃ t, port.request host access s =
        .ok ({ access with
            data := (port.data? (.ofAccess access (host.portInput s).1)).getD access.data },
          port.use (.ofAccess access (host.portInput s).1), t) ∧
      ∀ log, port.request host.recorded access (log, s) =
        .ok ({ access with
            data := (port.data? (.ofAccess access (host.portInput s).1)).getD access.data },
          port.use (.ofAccess access (host.portInput s).1),
          log ++ port.calls (.ofAccess access (host.portInput s).1), t) := by
  obtain ⟨t, hplain⟩ : ∃ t, port.answer host access s = (_, _, t) := ⟨_, port.answer_eq host h s⟩
  refine ⟨t, ?_, fun log => ?_⟩
  · rw [request, if_pos h, hplain]
  · rw [request, if_pos h, port.answer_recorded host h, hplain]

theorem Lived.recalls {host : PortHost σ} {variant : Variant} {uses : PortHistory} {port : IoPort}
    (h : Lived host variant uses port) : Recalls variant uses port := by
  induction h with
  | powerOn => exact recalls_powerOn variant
  | reset _ ih => exact ih.use .reset
  | @access uses port after access answer s t _ hrequest ih =>
    by_cases haddr : access.isPortAccess = true
    · obtain ⟨u, hplain, -⟩ := request_eq host haddr port s
      rw [hplain] at hrequest
      obtain ⟨-, rfl, -⟩ : _ ∧ port.use (.ofAccess access (host.portInput s).1) = after ∧ _ := by
        simpa using hrequest
      exact ih.use _
    · rw [request, if_neg haddr] at hrequest
      cases hrequest

/-- How a port answers a use: the byte on the data bus, what it asks and tells, and the port
afterwards. -/
def Answers (port after : IoPort) (data : UInt8) (calls : List PortEvent) : PortUse → Prop
  | .readDirection => data = port.direction ∧ calls = []
  | .readOutput level => calls = [.sampled level] ∧ ∀ n < 8, bit n data =
      if bit n port.direction then bit n port.output
      else bit n level || (bit n port.floating && bit n port.drive)
  | .writeDirection v | .writeOutput v => data = v ∧ ∃ shown, calls = [.shown shown] ∧ ∀ n < 8,
      bit n shown = if bit n after.direction then bit n after.output else bit n after.pullup
  | .reset => False

theorem answers_access (port : IoPort) (access : Pins) (level : UInt8) :
    port.Answers (port.use (.ofAccess access level))
      ((port.data? (.ofAccess access level)).getD access.data)
      (port.calls (.ofAccess access level)) (.ofAccess access level) := by
  have hshown : ∀ q : IoPort, ∀ n < 8,
      bit n q.shown = if bit n q.direction then bit n q.output else bit n q.pullup :=
    fun q n hn => bit_select hn q.direction q.output q.pullup
  unfold PortUse.ofAccess
  by_cases haddr : access.addr = 0
  · rw [if_pos haddr]
    cases access.read with
    | true => exact ⟨rfl, rfl⟩
    | false => exact ⟨rfl, _, rfl, hshown _⟩
  · rw [if_neg haddr]
    cases access.read with
    | false => exact ⟨rfl, _, rfl, hshown _⟩
    | true =>
      refine ⟨rfl, fun n hn => ?_⟩
      have hlines : bit n (port.sample level).lines =
          if bit n port.direction then bit n port.output
          else bit n (level ||| (port.floating &&& port.drive)) := by
        rw [← bit_select hn, UInt8.or_comm]
        rfl
      rw [← bit_and, ← bit_or, ← hlines]
      rfl

end IoPort

/-- The registers of the port are those of its history. The level of a line is that of the output
register if it is an output and the sampled one otherwise; the level last driven on it is that of
the latest write that left it an output, whatever resets and changes of direction have followed.
Every access to one of the two addresses is answered: a read with the register or the lines, a write
by telling once what the port puts on its lines. -/
theorem port_recalls_history {host : PortHost σ} {variant : Variant} {uses : PortHistory}
    {port : IoPort} (h : IoPort.Lived host variant uses port) :
    IoPort.Recalls variant uses port ∧ ∀ (access : Pins) (s : σ), access.isPortAccess = true →
      ∃ data after calls t,
        port.request host access s = .ok ({ access with data := data }, after, t) ∧
        port.request host.recorded access ([], s) =
          .ok ({ access with data := data }, after, calls, t) ∧
        IoPort.Lived host variant (.ofAccess access (host.portInput s).1 :: uses) after ∧
        port.Answers after data calls (.ofAccess access (host.portInput s).1) := by
  refine ⟨h.recalls, fun access s haddr => ?_⟩
  obtain ⟨t, hplain, hrecorded⟩ := IoPort.request_eq host haddr port s
  exact ⟨_, _, _, t, hplain, hrecorded [], h.access hplain, port.answers_access access _⟩

/-- A line that was driven high and is an input now floats: it reads as high where the outside
leaves all lines low. -/
theorem port_recalls_floating :
    let host : PortHost UInt8 :=
      { tick := fun p s => (p, s), portInput := fun s => (s, s), portOutput := fun _ s => s }
    let uses : PortHistory := [.writeDirection 0, .writeOutput 8, .writeDirection 8]
    ∃ port, IoPort.Lived host .c64 uses port ∧ bit 3 port.drive = uses.drive 3 ∧
      ∃ data after t, port.request host { Pins.reading with addr := 1 } 0 =
        .ok ({ Pins.reading with addr := 1, data := data }, after, t) ∧ bit 3 data = true := by
  intro host uses
  have hfirst : IoPort.Lived host .c64 [.writeDirection 8] _ :=
    .access .powerOn (show IoPort.request host { Pins.low with data := 8 } _ 0 = .ok _ from rfl)
  have hsecond : IoPort.Lived host .c64 [.writeOutput 8, .writeDirection 8] _ :=
    .access hfirst (show IoPort.request host { Pins.low with addr := 1, data := 8 } _ 0 = .ok _
      from rfl)
  have hthird : IoPort.Lived host .c64 uses _ :=
    .access hsecond (show IoPort.request host Pins.low _ 0 = .ok _ from rfl)
  obtain ⟨hrecalls, hanswers⟩ := port_recalls_history hthird
  obtain ⟨data, after, calls, t, hplain, -, -, -, hlevel⟩ :=
    hanswers { Pins.reading with addr := 1 } 0 rfl
  exact ⟨_, hthird, hrecalls.drive 3 (by decide), data, after, t, hplain,
    (hlevel 3 (by decide)).trans (by decide)⟩

end Nmos6502
