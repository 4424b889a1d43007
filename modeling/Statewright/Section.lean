import Statewright.Text.Lines

namespace Statewright

/-- The lines that open and close a section. -/
structure Delimiters where
  opening : Text := "%%"
  closing : Text := "%%"

/-- Delimiters some of which are given: one for both lines, or one for either. -/
def Delimiters.ofGiven (both opening closing : Option Text) : Delimiters :=
  let usual : Delimiters := {}
  ⟨(opening.or both).getD usual.opening, (closing.or both).getD usual.closing⟩

namespace Section

/-- Keeps the lines inside sections, without the blanks at their ends, and empties the others. An
empty delimiter ends the reading where it is met. -/
def keep (d : Delimiters) : (inside : Bool) → List Text → List Text
  | _, [] => []
  | false, l :: ls =>
    if l.trimEnd = d.opening then [] :: (if d.opening.isEmpty then [] else keep d true ls)
    else [] :: keep d false ls
  | true, l :: ls =>
    if l.trimEnd = d.closing then
      if d.closing.isEmpty then [] else [] :: keep d false ls
    else l.trimEnd :: keep d true ls

def extract (d : Delimiters) (host : Text) : Text :=
  Text.join "\n" (keep d false host.readLines)

/-- The sections of a file if they hold anything but blanks, else the whole file. -/
def load (host : Text) : Text :=
  let sections := extract {} host
  if sections.allBlank then host else sections

end Section
end Statewright
