import Qigong.Bytes
import Qigong.Collect.CollectingConn
import Qigong.Collect.Reconnects
import Qigong.Collect.Rrds
import Qigong.Collect.Runs
import Qigong.Collect.Sessions
import Qigong.Collect.Setup
import Qigong.Collect.Stamps
import Qigong.Collect.Watchdog
import Qigong.Conf.Accepts
import Qigong.Conf.Archives
import Qigong.Conf.Beside
import Qigong.Conf.CollectionsConf
import Qigong.Conf.Engine
import Qigong.Conf.Format
import Qigong.Conf.Frequencies
import Qigong.Conf.Keys
import Qigong.Conf.ReadConf
import Qigong.Conf.Remote
import Qigong.Conf.Scanning
import Qigong.Conf.Sight
import Qigong.Conf.Spacing
import Qigong.Conf.Steps
import Qigong.Conf.Strides
import Qigong.Conf.Termination
import Qigong.Crypt.Agreement
import Qigong.Crypt.Base64
import Qigong.Crypt.Checksum
import Qigong.Crypt.Connection
import Qigong.Crypt.Cuts
import Qigong.Crypt.Duplex
import Qigong.Crypt.Framing
import Qigong.Crypt.Gate
import Qigong.Crypt.Groups
import Qigong.Crypt.Handshake
import Qigong.Crypt.Key
import Qigong.Crypt.KeyFile
import Qigong.Crypt.Overflows
import Qigong.Crypt.Reading
import Qigong.Crypt.Reflection
import Qigong.Crypt.Ring
import Qigong.Crypt.Session
import Qigong.Crypt.Splitting
import Qigong.Crypt.Throws
import Qigong.Crypt.Transport
import Qigong.Crypt.Validity
import Qigong.Lib.Affine
import Qigong.Lib.Fields
import Qigong.Lib.Lines
import Qigong.Lib.Lists
import Qigong.Lib.Loop
import Qigong.Lib.Machine
import Qigong.Lib.OrdMap
import Qigong.Lib.Pairs
import Qigong.Lib.StreamCipher
import Qigong.Lib.Turns
import Qigong.Measure.Abbreviations
import Qigong.Measure.Columns
import Qigong.Measure.Disks
import Qigong.Measure.Filelen
import Qigong.Measure.Files
import Qigong.Measure.Interfaces
import Qigong.Measure.LogCount
import Qigong.Measure.MeasurePoint
import Qigong.Measure.Named
import Qigong.Measure.Newest
import Qigong.Measure.Outside
import Qigong.Measure.Servers
import Qigong.Measure.Supplied
import Qigong.Measure.Variables
import Qigong.Probe.Accesses
import Qigong.Probe.Activations
import Qigong.Probe.Alike
import Qigong.Probe.Answers
import Qigong.Probe.CollectedConn
import Qigong.Probe.Commands
import Qigong.Probe.Creation
import Qigong.Probe.Deletion
import Qigong.Probe.Isolation
import Qigong.Probe.Items
import Qigong.Probe.Links
import Qigong.Probe.Measures
import Qigong.Probe.Passes
import Qigong.Probe.RecordSets
import Qigong.Probe.Scanning
import Qigong.Probe.Texts
import Qigong.Probe.Touches
import Qigong.Probe.Unsubscribing
import Qigong.Probe.Views
import Qigong.Qiconn
import Qigong.Together.Acknowledgements
import Qigong.Together.Beliefs
import Qigong.Together.Collected
import Qigong.Together.Link
import Qigong.Together.Recorded
import Qigong.Together.Samples
import Qigong.Together.Served
import Qigong.Together.Standing
import Qigong.Together.Tellings
