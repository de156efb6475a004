import Plptools.Library.Run
import Plptools.Library.Ring
import Plptools.Library.Scanner
import Plptools.Library.Demux
import Plptools.Library.SlidingWindow
import Plptools.Library.SortedSlots
import Plptools.Library.Block
import Plptools.Library.Dialogue
import Plptools.Library.Rounds
import Plptools.Library.Packing
import Plptools.Library.Outcome
import Plptools.Library.ShiftRegister
import Plptools.Library.NormalForm
import Plptools.Library.Rows
import Plptools.Library.Loop
import Plptools.Library.StringToken
import Plptools.Library.Flags
import Plptools.Library.Records
import Plptools.Library.Reads
import Plptools.Buffer.Store
import Plptools.Buffer.Refinement
import Plptools.Buffer.Programs
import Plptools.Buffer.Array
import Plptools.Buffer.ArrayPrograms
import Plptools.Buffer.Capacity
import Plptools.DataLink.Crc
import Plptools.DataLink.Model
import Plptools.DataLink.Frame
import Plptools.DataLink.Refinement
import Plptools.DataLink.Process
import Plptools.DataLink.Output
import Plptools.DataLink.Delivery
import Plptools.DataLink.Round
import Plptools.DataLink.Termination
import Plptools.DataLink.Resync
import Plptools.DataLink.Pump
import Plptools.DataLink.Checksum
import Plptools.Ncp.Model
import Plptools.Ncp.Conversation
import Plptools.Ncp.Channels
import Plptools.Ncp.Reset
import Plptools.Ncp.Session
import Plptools.Ncp.Table
import Plptools.Ncp.SessionTable
import Plptools.Link.Model
import Plptools.Link.Steps
import Plptools.Link.FlowControl
import Plptools.Link.Frame
import Plptools.Link.Pair
import Plptools.Link.Handshake
import Plptools.Link.Running
import Plptools.Link.Sending
import Plptools.Link.Direction
import Plptools.Link.ImplicitAck
import Plptools.Link.Delivery
import Plptools.Link.Reset
import Plptools.Link.Session
import Plptools.Link.Numbers
import Plptools.Link.Timing
import Plptools.Link.Purge
import Plptools.Link.Exhaustion
import Plptools.Link.FastRetransmit
import Plptools.Link.Acks
import Plptools.Ncp.PacketSize
import Plptools.Ncp.ShortFrames
import Plptools.Sockets.IOWatch
import Plptools.Sockets.TCPSocket
import Plptools.Config.Ini
import Plptools.Config.RoundTrip
import Plptools.Config.DeviceConfiguration
import Plptools.Rfsv.RFSV
import Plptools.Rfsv.RFSV16
import Plptools.Rfsv.RFSV32
import Plptools.Rfsv.Seek
import Plptools.Rfsv.Transfer
import Plptools.Rfsv.Reading
import Plptools.Rfsv.Loops
import Plptools.Rfsv.Handles
import Plptools.Sockets.Resending
import Plptools.Bitmap.PsiBitmap
import Plptools.Bitmap.RoundTrip
import Plptools.Bitmap.Layout
import Plptools.Bitmap.Ints
import Plptools.Bitmap.Runs
import Plptools.Bitmap.Depths
import Plptools.Bitmap.Robust
import Plptools.Sis.Types
import Plptools.Sis.Records
import Plptools.Sis.SISFile
import Plptools.Sis.Layout
import Plptools.Sis.Bounds
import Plptools.Sis.Frame
import Plptools.Sis.Residual
import Plptools.Sis.Checksum
import Plptools.Sis.SISInstaller
import Plptools.Sis.Installing
import Plptools.Sis.Uninstall
import Plptools.Path.PathUtils
import Plptools.Path.SplitJoin
import Plptools.Path.Appending
import Plptools.Path.Resolve
import Plptools.Path.Following
import Plptools.Rfsv.Listing
import Plptools.Rfsv.Attributes
import Plptools.Rfsv.Status
import Plptools.Rfsv.Counting
import Plptools.Rfsv.Settling
import Plptools.Rfsv.Responses
import Plptools.Ftp.Sattr
import Plptools.Fuse.Rename
import Plptools.Time.PsiTime
import Plptools.Time.Conversion
import Plptools.Time.Invariant
import Plptools.Print.Escape
import Plptools.Print.Text
import Plptools.Print.ConvertPage
import Plptools.Print.Progress
import Plptools.Print.Service
import Plptools.Print.Pages
