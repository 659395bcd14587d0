import EnetRs.Lib.BitArray
import EnetRs.Lib.Collections
import EnetRs.Lib.Crc
import EnetRs.Lib.MachineInt
import EnetRs.Lib.Mpsc
import EnetRs.Lib.Network
import EnetRs.Lib.Packing
import EnetRs.Lib.Panic
import EnetRs.Lib.Serial
import EnetRs.Lib.Slices
import EnetRs.Lib.Transition
import EnetRs.Protocol.Wire
import EnetRs.Protocol.RoundTrip
import EnetRs.Protocol.Crc
import EnetRs.Protocol.Checked
import EnetRs.Channel
import EnetRs.Peer
import EnetRs.Host.State
import EnetRs.Host.Handshake
import EnetRs.Host.Receive
import EnetRs.Host.Send
import EnetRs.Host.Service
import EnetRs.Host.Run
import EnetRs.Host.Slots
import EnetRs.Host.Label
import EnetRs.Host.Frames
import EnetRs.Host.Channels
import EnetRs.Host.Deliveries
import EnetRs.Host.Outstanding
import EnetRs.Host.Exec
import EnetRs.Host.Steps
import EnetRs.Host.Bounds
import EnetRs.Host.Ownership
import EnetRs.Host.Checked
import EnetRs.Safety.Acknowledge
import EnetRs.Safety.Address
import EnetRs.Safety.AddressMap
import EnetRs.Safety.Custody
import EnetRs.Safety.Establish
import EnetRs.Safety.Handles
import EnetRs.Safety.Limits
import EnetRs.Safety.Panics
import EnetRs.Safety.Rtt
import EnetRs.Sending.Budget
import EnetRs.Sending.Carried
import EnetRs.Sending.Connection
import EnetRs.Sending.Disconnect
import EnetRs.Sending.InFlight
import EnetRs.Sending.Mtu
import EnetRs.Sending.Numbering
import EnetRs.Sending.Order
import EnetRs.Sending.Packets
import EnetRs.Sending.Pending
import EnetRs.Sending.Retransmit
import EnetRs.Sending.Runs
import EnetRs.Sending.Stored
import EnetRs.Sending.Teardown
import EnetRs.Sending.Transmissions
import EnetRs.Sending.Window
import EnetRs.Sending.Wire
import EnetRs.Exchange.Checksum
import EnetRs.Exchange.Datagram
import EnetRs.Exchange.Duplicates
import EnetRs.Exchange.Grouping
import EnetRs.Exchange.Handshake
import EnetRs.Exchange.Outgoing
import EnetRs.Exchange.Reference
import EnetRs.Exchange.Routing
import EnetRs.Exchange.Sessions
import EnetRs.Exchange.Terms
import EnetRs.Exchange.Unsequenced
import EnetRs.Exchange.Utterance
import EnetRs.Reassembly.Accounting
import EnetRs.Reassembly.Arrival
import EnetRs.Reassembly.Buffer
import EnetRs.Reassembly.Commands
import EnetRs.Reassembly.Completion
import EnetRs.Reassembly.Fragmentation
import EnetRs.Reassembly.Handover
import EnetRs.Reassembly.InOrder
import EnetRs.Reassembly.Interference
import EnetRs.Reassembly.Invariant
import EnetRs.Reassembly.Late
import EnetRs.Reassembly.Leftover
import EnetRs.Reassembly.Prefix
import EnetRs.Reassembly.Queue
import EnetRs.Reassembly.Reception
import EnetRs.Reassembly.Separate
import EnetRs.Reassembly.Single
import EnetRs.Reassembly.Stream
import EnetRs.System.Agreement
import EnetRs.System.Delivery
import EnetRs.System.Link
import EnetRs.System.Receiver
import EnetRs.System.Requester
import EnetRs.System.Sender
import EnetRs.System.Speech
import EnetRs.System.TwoHosts
import EnetRs.Endpoint.Model
import EnetRs.Endpoint.Reading
import EnetRs.Endpoint.Release
import EnetRs.Endpoint.Turn
