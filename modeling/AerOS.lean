import AerOS.Proof.Records.Runs
import AerOS.Proof.Raid.Spreads
import AerOS.Proof.Raid.Agreement
import AerOS.Proof.Frames.Runs
import AerOS.Proof.Heap.Runs
import AerOS.Proof.Slab.Runs
import AerOS.Proof.Seccomp.Runs
import AerOS.Proof.X509.Chain
import AerOS.Proof.Futex.Runs
import AerOS.Proof.Futex.Handover
import AerOS.Proof.Vfs.Places
import AerOS.Proof.Block.Runs
import AerOS.Proof.Inflate.Checksum
import AerOS.Proof.Tls.Ending
import AerOS.Proof.Pkg.Runs
import AerOS.Proof.Fat.Checking
import AerOS.Proof.Descriptors.Pipes
import AerOS.Proof.Descriptors.Connections
import AerOS.Proof.Streams.Runs
import AerOS.Proof.Terminal.Bytes
import AerOS.Proof.Tcp.Fin
import AerOS.Proof.Smp.Runs
import AerOS.Proof.Epoll.Edges
import AerOS.Proof.FrameRefs.Runs
import AerOS.Proof.Clock.Stamps
