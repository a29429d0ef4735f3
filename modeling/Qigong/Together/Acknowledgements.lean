import Qigong.Collect.Setup
import Qigong.Together.Tellings

/-!
# What acknowledges a command

The collector takes a line that begins with the `wait_string` of its command for the
answer, whatever the qigong has sent the line for. So the lines that begin so
(`isAck`) are counted here, among all the qigong tells a connection: the text of a
command, the records of measures, prompts. What other connections do, and the schedule,
acknowledges nothing (`step_unacked`).
-/

namespace Qigong.Together

open Probe Probe.Globals
open Crypt.CryptConnection (splitRecord)
open Collect (Command)

variable {S : Scanners} {B : Build} {env : Env} {g₀ g g' : Globals} {pcc : ConnId}
variable {blank ident : UInt8 → Bool}

/-! ## Acknowledgements -/

/-- Does the line begin as the collector waits for it to begin, behind some command? -/
def isAck (l : Bytes) : Bool := Collect.setup.any fun cmd => startsWith cmd.wait_string l

theorem mem_setup (cmd : Command) : cmd ∈ Collect.setup := by cases cmd <;> decide

/-- It does where some command waits for such a line. -/
theorem isAck_iff {l : Bytes} : isAck l = true ↔ ∃ cmd : Command, cmd.wait_string <+: l := by
  unfold isAck
  rw [List.any_eq_true]
  constructor
  · rintro ⟨cmd, -, h⟩
    exact ⟨cmd, startsWith_iff.mp h⟩
  · rintro ⟨cmd, h⟩
    exact ⟨cmd, mem_setup cmd, startsWith_iff.mpr h⟩

theorem isAck_nil : isAck [] = false := by decide

/-- The letters the commands' answers begin with. -/
def ackHeads : List UInt8 := [100, 99, 97, 115]

/-- Each `wait_string` begins with one of these. -/
theorem head?_wait_string (cmd : Command) : ∃ a, cmd.wait_string.head? = some a ∧ a ∈ ackHeads := by
  cases cmd
  · exact ⟨100, rfl, by decide⟩
  · exact ⟨99, rfl, by decide⟩
  · exact ⟨97, rfl, by decide⟩
  · exact ⟨115, rfl, by decide⟩

theorem noEol_wait_string (cmd : Command) : NoEol cmd.wait_string := by cases cmd <;> decide

theorem wait_string_ne_nil (cmd : Command) : cmd.wait_string ≠ [] := by cases cmd <;> decide

/-- A line that begins with another letter. -/
theorem isAck_of_head {l : Bytes} {b : UInt8} (hl : l.head? = some b) (hb : b ∉ ackHeads) :
    isAck l = false := by
  by_contra h
  obtain ⟨cmd, hcmd⟩ := isAck_iff.mp (by simpa using h)
  obtain ⟨a, ha, hmem⟩ := head?_wait_string cmd
  exact not_prefix_of_head ha hl (fun heq => hb (heq ▸ hmem)) hcmd

/-- What only tells of a deletion or an activation does not acknowledge it. -/
theorem unpicked_isAck : Unpicked isAck where
  nil := isAck_nil
  head l b hl hb := isAck_of_head hl fun hmem => hb (List.mem_cons_of_mem _ hmem)
  deletion rest := by
    -- the sixth character tells `delete:` from `deletion`
    refine Bool.eq_false_iff.mpr fun hack => ?_
    obtain ⟨cmd, hcmd⟩ := isAck_iff.mp hack
    have hsix : cmd.wait_string.take 6 <+: str "deleti" :=
      List.prefix_of_prefix_length_le ((List.take_prefix 6 _).trans hcmd)
        (List.prefix_append (str "deleti") _) (by cases cmd <;> decide)
    revert hsix
    cases cmd <;> decide
  activation rest := by
    -- and the eighth `activate:` from `activation`
    refine Bool.eq_false_iff.mpr fun hack => ?_
    obtain ⟨cmd, hcmd⟩ := isAck_iff.mp hack
    have height : cmd.wait_string.take 8 <+: str "activati" :=
      List.prefix_of_prefix_length_le ((List.take_prefix 8 _).trans hcmd)
        (List.prefix_append (str "activati") _) (by cases cmd <;> decide)
    revert height
    cases cmd <;> decide

/-- A text acknowledges nothing where none of its lines begins with a `wait_string`. -/
theorem picks_isAck_eq_nil_iff {text : Bytes} :
    picks isAck text = [] ↔ ∀ cmd : Command, ¬ Lib.Begins isEol cmd.wait_string text := by
  unfold picks
  rw [List.filter_eq_nil_iff]
  have hbegins : ∀ cmd : Command, (∃ l ∈ splitRecord [] text, cmd.wait_string <+: l) ↔
      Lib.Begins isEol cmd.wait_string text := fun cmd =>
    begins_splitRecord (noEol_wait_string cmd) (wait_string_ne_nil cmd) noEol_nil
  constructor
  · intro h cmd hcmd
    obtain ⟨l, hl, hw⟩ := (hbegins cmd).mpr hcmd
    exact h l hl (isAck_iff.mpr ⟨cmd, hw⟩)
  · intro h l hl hack
    obtain ⟨cmd, hw⟩ := isAck_iff.mp hack
    exact h cmd ((hbegins cmd).mp ⟨l, hl, hw⟩)

/-! ## What is told -/

/-- The measure functions give no line ends. -/
def Measured (env : Env) : Prop := ∀ n i, NoEol (env.measured n i)

theorem measured_sample : Measured sampleEnv := by
  intro n i
  show NoEol (str "0.5")
  decide

/-- In the event the measure functions give no line ends. -/
def MeasuredIn (e : Event) : Prop := ∀ env, envOf e = some env → Measured env

/-- The record of a set begins as a measure does. -/
theorem records_unacked (henv : Measured env) (hident : ∀ c, ident c = true → isEol c = false)
    (hn : Named blank ident g) (pcc : ConnId) : Records isAck (fun _ => False) pcc env g := by
  intro g₁ prs rs hr _ l hl
  have hname : NoEol rs.name := fun c hc => hident c ((hn prs rs hr).1.run c hc)
  -- a record is one line, as no name and no value has a line end in it
  have hline : NoEol (sampleLine g₁ env rs) := by
    refine noEol_sampleLine hname fun v hv => ?_
    obtain ⟨i, -, rfl⟩ := List.mem_map.mp hv
    exact henv _ i
  have hclean : Clean isAck (g₁.sample env rs) :=
    clean_of_not isAck_nil hline (isAck_of_head (b := 45) rfl (by decide))
  rw [hclean.picks] at hl
  cases hl

/-- From `g₀` to `g` nothing that the connection is told acknowledges a command. -/
abbrev Unacked (pcc : ConnId) (g₀ g : Globals) : Prop := Tells isAck (fun _ => False) pcc g₀ g

/-- While nothing happens nothing is acknowledged. -/
theorem unacked_refl (h : Hushed g) (pcc : ConnId) : Unacked pcc g g := tells_refl isAck_nil h pcc

/-- Then none of the lines told acknowledges a command. -/
theorem told_unacked (h : Unacked pcc g g') : (told pcc g g').filter isAck = [] :=
  List.eq_nil_iff_forall_not_mem.mpr h.told

/-- **No event of another connection, nor the schedule, acknowledges a command** to a
connection. -/
theorem step_unacked (hS : S.Documented blank ident)
    (hident : ∀ c, ident c = true → isEol c = false) (hh : Hushed g) (hn : Named blank ident g)
    {e : Event} (hne : connOf e ≠ some pcc) (he : MeasuredIn e) (h : step S B g e = some g') :
    Unacked pcc g g' :=
  step_tells unpicked_isAck hS hh hne (fun env henv => records_unacked (he env henv) hident hn pcc) h

end Qigong.Together
