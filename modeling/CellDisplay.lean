import CellDisplay.Binary64.Bits
import CellDisplay.Memo
import CellDisplay.Proofs.Address.Spelling
import CellDisplay.Proofs.Calendar.Clock
import CellDisplay.Proofs.Calendar.DateTime
import CellDisplay.Proofs.Calendar.Weekday
import CellDisplay.Proofs.Checked.DayNumber
import CellDisplay.Proofs.Checked.Rendering
import CellDisplay.Proofs.Checked.Search
import CellDisplay.Proofs.Checked.Segment
import CellDisplay.Proofs.Checked.Span
import CellDisplay.Proofs.DateCode.HourMinute
import CellDisplay.Proofs.DateCode.Spelled
import CellDisplay.Proofs.Format.Piece
import CellDisplay.Proofs.Memo.ReadThrough
import CellDisplay.Proofs.NumberCode.FirstSection
import CellDisplay.Proofs.NumberCode.General
import CellDisplay.Proofs.NumberCode.Section
import CellDisplay.Proofs.NumberPattern.Fault
import CellDisplay.Proofs.NumberPattern.Finite
import CellDisplay.Proofs.NumberPattern.Placeless
import CellDisplay.Proofs.NumberPattern.Places
import CellDisplay.Proofs.NumberPattern.Recent
import CellDisplay.Proofs.Render
