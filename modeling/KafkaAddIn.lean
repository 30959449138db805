import KafkaAddIn.ConsumeExit
import KafkaAddIn.ProduceExit
import KafkaAddIn.Foundation.Runs
import KafkaAddIn.Names
import KafkaAddIn.Process
import KafkaAddIn.HostValues
import KafkaAddIn.ResultStrings
import KafkaAddIn.Parameters
import KafkaAddIn.SentRecords
import KafkaAddIn.HostCalls
import KafkaAddIn.MessageKey
import KafkaAddIn.Isolation
import KafkaAddIn.Acknowledgement
import KafkaAddIn.ClientLifetime
import KafkaAddIn.Delivery
import KafkaAddIn.HostMemory
import KafkaAddIn.NameLookup
import KafkaAddIn.HandleProtocol
import KafkaAddIn.Widening
import KafkaAddIn.Narrowing
import KafkaAddIn.Foundation.Typestate
import KafkaAddIn.Sessions
import KafkaAddIn.GivenNames
import KafkaAddIn.Foundation.Multibyte
import KafkaAddIn.HostTexts
import KafkaAddIn.HostBlocks
import KafkaAddIn.Faults
import KafkaAddIn.Configurations
import KafkaAddIn.Interrupts
import KafkaAddIn.Interface
import KafkaAddIn.ExitTables
import KafkaAddIn.Confinement
import KafkaAddIn.Foundation.Feed
import KafkaAddIn.Kafka
import KafkaAddIn.RecordFlow
import KafkaAddIn.LogsAndOffsets
import KafkaAddIn.ReceivedTexts
import KafkaAddIn.Errands
