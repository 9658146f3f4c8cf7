import ResourceDistribution.Node.Commands
import ResourceDistribution.Node.Text

/-!
# The console

What the console of `tui.rs` does with a key: it edits the line, or, at the end of the line, executes
it, which may send a command to the runtime, and await it. What is shown is left out.
-/

namespace Node

/-- What a line makes the console send, and whether it awaits that this is done. -/
structure ConsoleRequest where
  command : RuntimeCommand
  awaits : Bool
  deriving DecidableEq

/-- `Tui::handle_command`, with the channel that it creates for the command. -/
def handleCommand (line : String) (done : CommandDone) : Option ConsoleRequest :=
  match splitWhitespace (trim line) with
  | "local" :: _ => none
  | "localCplt" :: _ => none
  | "update" :: _ => some ⟨.publishLocalFiles done, true⟩
  | "list" :: _ => some ⟨.listTrackerFiles done, true⟩
  | "download" :: target :: _ => some ⟨.download target done, false⟩
  | "download" :: [] => none
  | "offline" :: _ => some ⟨.markOffline done, true⟩
  | "help" :: _ => none
  | "exit" :: _ => some ⟨.shutdown, false⟩
  | _ :: _ => none
  | [] => none

inductive KeyCode where
  | enter
  | backspace
  | char (c : Char)
  | esc
  | other

/-- The line that is typed, and the position of the console in the broadcast channel. -/
structure Tui where
  inputBuffer : String
  rx : Nat
  deriving DecidableEq

/-- The console when a key is pressed, and what it sends. -/
def Tui.press (tui : Tui) (done : CommandDone) : KeyCode → Tui × Option ConsoleRequest
  | .enter =>
      if tui.inputBuffer = "" then (tui, none)
      else ({ tui with inputBuffer := "" }, handleCommand tui.inputBuffer done)
  | .backspace => ({ tui with inputBuffer := String.ofList tui.inputBuffer.toList.dropLast }, none)
  | .char c => ({ tui with inputBuffer := tui.inputBuffer.push c }, none)
  | .esc => (tui, some ⟨.shutdown, false⟩)
  | .other => (tui, none)

/-- The console when a line is typed and entered. -/
def Tui.enter (tui : Tui) (line : String) (done : CommandDone) : Tui × Option ConsoleRequest :=
  (line.toList.foldl (fun tui c => (tui.press done (.char c)).1) tui).press done .enter

/-- What a line makes the shell of `node_shell.rs` do: what it sends, and awaits, and whether it
stops. -/
structure ShellRequest where
  command : Option RuntimeCommand
  stops : Bool
  deriving DecidableEq

/-- `handle_command` of `node_shell.rs`, with the channel that it creates for the command, and what
printing the local files comes to. -/
def NodeShell.handleCommand (command : String) (done : CommandDone) (printed : Except String Unit) :
    Except String ShellRequest :=
  match splitWhitespace command with
  | "local" :: _ => printed.map fun _ => ⟨none, false⟩
  | "localCplt" :: _ => printed.map fun _ => ⟨none, false⟩
  | "update" :: _ => .ok ⟨some (.publishLocalFiles done), false⟩
  | "list" :: _ => .ok ⟨some (.listTrackerFiles done), false⟩
  | "download" :: target :: _ => .ok ⟨some (.download target done), false⟩
  | "download" :: [] => .ok ⟨none, false⟩
  | "offline" :: _ => .ok ⟨some (.markOffline done), false⟩
  | "help" :: _ => .ok ⟨none, false⟩
  | "exit" :: _ => .ok ⟨none, true⟩
  | _ :: _ => .ok ⟨none, false⟩
  | [] => .ok ⟨none, false⟩

/-! ### The line of a download -/

/-- The characters of a line are typed one after another. -/
theorem Tui.foldl_press (tui : Tui) (chars : List Char) (done : CommandDone) :
  chars.foldl (fun tui c => (tui.press done (.char c)).1) tui
    = { tui with inputBuffer := tui.inputBuffer ++ String.ofList chars }
  := by
  induction chars generalizing tui with
  | nil => simp
  | cons c chars ih =>
      have happend : tui.inputBuffer.push c ++ String.ofList chars
          = tui.inputBuffer ++ String.ofList (c :: chars) := by
        apply String.toList_inj.mp
        simp
      rw [List.foldl_cons, ih, Tui.press]
      dsimp only
      rw [happend]

/-- A line that is typed at an empty prompt is executed. -/
theorem Tui.enter_eq {tui : Tui} (htui : tui.inputBuffer = "") {line : String} (hline : line ≠ "")
    (done : CommandDone) :
  tui.enter line done = (tui, handleCommand line done)
  := by
  obtain ⟨_, rx⟩ := tui
  cases htui
  rw [Tui.enter, Tui.foldl_press, Tui.press]
  simp [hline]

/-- What is downloaded is the first word after the command, in the console and in the shell. -/
theorem handleCommand_download {name : String} (hname : name ≠ "")
    (hhead : ∀ c ∈ name.toList.head?, isWhitespace c = false) (done : CommandDone) :
  handleCommand ("download " ++ name) done = some ⟨.download (firstWord name) done, false⟩ ∧
    ∀ printed, NodeShell.handleCommand (trim ("download " ++ name)) done printed
      = .ok ⟨some (.download (firstWord name) done), false⟩
  := by
  have hplain : ∀ c ∈ "download".toList, isWhitespace c = false := by
    simp [isWhitespace, whitespace]
  obtain ⟨rest, hwords⟩ : ∃ rest,
      splitWhitespace ("download" ++ " " ++ name) = "download" :: firstWord name :: rest :=
    exists_splitWhitespace_eq (by decide) hplain hname hhead
  have htrim : splitWhitespace (trim ("download " ++ name)) = "download" :: firstWord name :: rest :=
    (splitWhitespace_trim _).trans hwords
  constructor
  · simp only [handleCommand, htrim]
  · intro printed
    simp only [NodeShell.handleCommand, htrim]

end Node
