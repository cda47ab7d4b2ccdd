import Mohhdy.Collab.Conservation
import Mohhdy.Collab.AntiEntropy
import Mohhdy.Collab.Authentication
import Mohhdy.Collab.Copies
import Mohhdy.Raft.Committed
import Mohhdy.P2p.AtMostOnce
import Mohhdy.P2p.Exchange
import Mohhdy.P2p.Flow
import Mohhdy.Kernel.Grants
import Mohhdy.Kernel.Admission
import Mohhdy.Kernel.Termination
import Mohhdy.Kernel.Refusal
import Mohhdy.Net.SequenceSpace
import Mohhdy.Net.Window
import Mohhdy.Net.Delivery
import Mohhdy.Devsync.Convergence
import Mohhdy.Devsync.Imports
import Mohhdy.Relay.Isolation
import Mohhdy.Kernel.SerialOutput
import Mohhdy.PromptMessage.Confinement
import Mohhdy.PromptMessage.Soundness
import Mohhdy.PromptMessage.Bounds
import Mohhdy.Grpc.Windows
import Mohhdy.Net.Handshake
import Mohhdy.Web.Paths
import Mohhdy.Fat.Mount
import Mohhdy.Overlay.Listing
import Mohhdy.Ramfs.Erasure
import Mohhdy.Kernel.Elf
import Mohhdy.PromptMessage.Bus
import Mohhdy.Grpc.Headers
import Mohhdy.Web.Requests
