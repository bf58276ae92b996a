/-!
Styles, and the runs of one style that a text consists of.
-/

namespace Highlight

/--
The style of a byte. What a number means is up to the language; 0 is the style of a text that was
never coloured.
-/
abbrev Style := UInt8

/--
The bytes from `start` up to but not including `stop`, all of one style.
-/
structure StyleRun where
  start : Nat
  stop : Nat
  style : Style
  deriving DecidableEq, Repr

namespace StyleRun

def length (run : StyleRun) : Nat :=
  run.stop - run.start

def isEmpty (run : StyleRun) : Bool :=
  run.start == run.stop

def contains (run : StyleRun) (pos : Nat) : Bool :=
  run.start ≤ pos && pos < run.stop

/--
Put one byte in front of the runs that follow it.
-/
def cons (pos : Nat) (style : Style) (runs : List StyleRun) : List StyleRun :=
  match runs with
  | [] => [⟨pos, pos + 1, style⟩]
  | run :: runs =>
    if run.style == style then
      { run with start := pos } :: runs
    else
      ⟨pos, pos + 1, style⟩ :: run :: runs

def ofStylesFrom (pos : Nat) (styles : List Style) : List StyleRun :=
  match styles with
  | [] => []
  | style :: styles => cons pos style (ofStylesFrom (pos + 1) styles)

/--
The maximal runs of a sequence of styles.
-/
def ofStyles (styles : Array Style) : List StyleRun :=
  ofStylesFrom 0 styles.toList

end StyleRun

end Highlight
