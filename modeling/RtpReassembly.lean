import RtpReassembly.Main
import RtpReassembly.Capture.Device
import RtpReassembly.FileTree
import RtpReassembly.Log.Memory
import RtpReassembly.Packetizer
import RtpReassembly.Sdp.Printer
import RtpReassembly.Settings.Printer
import RtpReassembly.Proofs.Circle
import RtpReassembly.Proofs.Records
import RtpReassembly.Proofs.Row
import RtpReassembly.Proofs.Insertion
import RtpReassembly.Proofs.Moves
import RtpReassembly.Proofs.Trace
import RtpReassembly.Proofs.Origin
import RtpReassembly.Proofs.Order
import RtpReassembly.Proofs.Intake
import RtpReassembly.Proofs.Gathering
import RtpReassembly.Proofs.Standing
import RtpReassembly.Proofs.Reordering
import RtpReassembly.Proofs.Shipping
import RtpReassembly.Proofs.RoundTrip
import RtpReassembly.Proofs.Accounting
import RtpReassembly.Proofs.Neighbours
import RtpReassembly.Proofs.Losses
import RtpReassembly.Proofs.Whereabouts
import RtpReassembly.Proofs.Repeats
import RtpReassembly.Proofs.Renumbering
import RtpReassembly.Proofs.Checked.Datagram
import RtpReassembly.Proofs.Checked.Assembly
import RtpReassembly.Proofs.Checked.Receiving
import RtpReassembly.Proofs.Delivery
import RtpReassembly.Proofs.Refusals
import RtpReassembly.Proofs.Tables
import RtpReassembly.Proofs.Routing
import RtpReassembly.Proofs.Balance
import RtpReassembly.Proofs.Interleaving
import RtpReassembly.Proofs.Fingerprints
import RtpReassembly.Proofs.Headers
import RtpReassembly.Proofs.Capture.Reading
import RtpReassembly.Proofs.Capture.Cuts
import RtpReassembly.Proofs.Layout
import RtpReassembly.Proofs.Sending
import RtpReassembly.Proofs.Taking
import RtpReassembly.Proofs.UnitReader
import RtpReassembly.Proofs.SortedBuffer
import RtpReassembly.Proofs.Text.Numerals
import RtpReassembly.Proofs.Text.Words
import RtpReassembly.Proofs.Sdp.Mappings
import RtpReassembly.Proofs.Text.Lines
import RtpReassembly.Proofs.Sdp.Sections
import RtpReassembly.Proofs.Sdp.Descriptions
import RtpReassembly.Proofs.Settings.Assignments
import RtpReassembly.Proofs.Settings.Layouts
