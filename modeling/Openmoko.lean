import Openmoko.Gsmd.Proof.UartWriter
import Openmoko.Gsmd.Proof.ResponseIsolation
import Openmoko.Gsmd.Proof.PromptDiscipline
import Openmoko.Gsmd.Proof.FinalOutcome
import Openmoko.Opkg.Proof.ActiveListPrev
import Openmoko.Gsmd.Proof.UsockFraming
import Openmoko.Opkg.Proof.FileOwnership
import Openmoko.Opkg.Proof.DependText
import Openmoko.Opkg.Proof.StatusRoundTrip
import Openmoko.Opkg.Proof.InstalledFiles
import Openmoko.Gsmd.Proof.UsockDelivery
import Openmoko.Libgsmd.Proof.PacketFraming
import Openmoko.Gsmd.Proof.ClientTeardown
import Openmoko.Gsmd.Proof.TimerService
import Openmoko.Fped.Proof.PrioritySort
import Openmoko.Fped.Proof.GeometryRoundTrip
import Openmoko.Fped.Proof.Rebasing
import Openmoko.Fped.Proof.UnitConversion
import Openmoko.Fped.Proof.SampleSelection
import Openmoko.Fped.Proof.FrameOrder
import Openmoko.Fped.Proof.FrameNesting
import Openmoko.Boom.Proof.OrderAllocation
import Openmoko.Boom.Proof.BlockExpansion
import Openmoko.Boom.Proof.HashOrder
import Openmoko.Fped.Proof.ActiveReference
import Openmoko.Dfu.Proof.Download
import Openmoko.Phonekit.Proof.RetryTimers
import Openmoko.Mokojournal.Proof.EntryRoundTrip
import Openmoko.Mokojournal.Proof.CacheSync
import Openmoko.Phonekit.Proof.SendConfirmations
import Openmoko.Phonekit.Proof.UnreadCount
import Openmoko.Phonekit.Proof.CallHistory
import Openmoko.Phonekit.Proof.DialerStatus
import Openmoko.Usbpath.Proof.PathRoundTrip
import Openmoko.Opkgutils.Proof.IndexRoundTrip
import Openmoko.Opkgutils.Proof.NewestKept
import Openmoko.Boom.Proof.CrefOrder
import Openmoko.Boom.Proof.RankOrder
import Openmoko.Boom.Proof.DescriptionLookup
import Openmoko.Boom.Proof.CharacteristicMatch
import Openmoko.Envcpp.Proof.Conditionals
import Openmoko.Envedit.Proof.TrailingBlanks
import Openmoko.Fped.Proof.NameExpansion
import Openmoko.Fped.Proof.OneToOne
import Openmoko.Fped.Proof.Instantiation
import Openmoko.Gsmd.Proof.LfcrLines
import Openmoko.Gsmd.Proof.BufferBounds
import Openmoko.Gsmd.Proof.PduBounds
import Openmoko.Gsmd.Proof.ResponseLimits
import Openmoko.Gsmd.RequestBuffers
import Openmoko.InputFilter.InputFilter
import Openmoko.Phonekit.Contacts
import Openmoko.Mokojournal.ForeignComponent
import Openmoko.Phonekit.SendBuffers
import Openmoko.Phonekit.IncomingSms
import Openmoko.Opkg.VoidList
import Openmoko.Opkg.Proof.Conflicts
import Openmoko.Opkg.Proof.ProviderVectors
import Openmoko.Opkg.Proof.UpgradeList
import Openmoko.Opkg.Proof.Orphans
