import Mountin.Basic.Bytes
import Mountin.Basic.Runs
import Mountin.Detect.Matching
import Mountin.Detect.Documented
import Mountin.Detect.Evaluators
import Mountin.Detect.Slices
import Mountin.Detect.Signed
import Mountin.Detect.Xor
import Mountin.Detect.Tree
import Mountin.Detect.Priority
import Mountin.Disk.TwoImg
import Mountin.Detect.Dedup
import Mountin.Disk.Map
import Mountin.Disk.Fields
import Mountin.Disk.Qcow
import Mountin.Disk.BlockMap
import Mountin.Basic.BinarySearch
import Mountin.Disk.Vmdk
import Mountin.Disk.Chunks
import Mountin.Disk.Dmg
import Mountin.Detect.Window
import Mountin.Disk.Transparent
import Mountin.Basic.Dict
import Mountin.Basic.Elimination
import Mountin.Basic.Raising
import Mountin.Build.Metadata
import Mountin.Build.OutputIndex
import Mountin.Basic.Kahn
import Mountin.Basic.DepthFirst
import Mountin.Build.Graph
import Mountin.Build.Order
import Mountin.Basic.Crash
import Mountin.Build.Cache
import Mountin.Build.Hashed
import Mountin.Build.World
import Mountin.Build.Runner
import Mountin.Build.RunRule
import Mountin.Build.Source
import Mountin.Build.Command
import Mountin.Build.Identity
import Mountin.Build.Targets
import Mountin.Build.Edits
import Mountin.Basic.Splice
import Mountin.Basic.ImageUnits
import Mountin.Basic.Words
import Mountin.Disk.Exposes
import Mountin.Disk.Vhd
import Mountin.Disk.Vhdx
import Mountin.Disk.Qcow2
import Mountin.Disk.DmgPlist
import Mountin.Disk.DmgTable
import Mountin.Disk.DmgLookup
import Mountin.Disk.Ewf
import Mountin.Disk.VmdkGrains
import Mountin.Disk.Dms
import Mountin.Disk.DmsTracks
import Mountin.Disk.DmsHeavy
import Mountin.Disk.DmsBits
import Mountin.Disk.Scl
import Mountin.Disk.Cdi
import Mountin.Disk.Nrg
import Mountin.Basic.Delimited
import Mountin.Build.SourceIdentity
import Mountin.Build.InputText
import Mountin.Build.ProviderCache
import Mountin.Relay.Base64
import Mountin.Relay.Stream64
import Mountin.Relay.Messages
import Mountin.Relay.Armored
import Mountin.Relay.Exchange
import Mountin.Build.Catalogue
import Mountin.Basic.Restrict
import Mountin.Build.Merge
import Mountin.Basic.Views
import Mountin.Build.Operational
import Mountin.Build.Variants
import Mountin.Build.Environment
import Mountin.Basic.LinkedWalk
import Mountin.Partition.Mbr
import Mountin.Partition.Exact
import Mountin.Partition.Gpt
import Mountin.Partition.Rdb
import Mountin.Partition.Dasd
import Mountin.Partition.Ics
import Mountin.Partition.Extents
import Mountin.Build.Markers
import Mountin.Disk.EqualBlocks
import Mountin.Partition.Ubi
import Mountin.Partition.UbiBlocks
import Mountin.Disk.Honest
import Mountin.Partition.Acorn
import Mountin.Disk.Tables
import Mountin.Basic.Checked
import Mountin.Disk.Arithmetic
import Mountin.Disk.Cloop
import Mountin.Disk.Apridisk
import Mountin.Basic.FirstFit
import Mountin.Fs.Fields
import Mountin.Fs.AtariDos
import Mountin.Fs.OricJasmin
import Mountin.Fs.HuBasic
import Mountin.Fs.CocoRsDos
import Mountin.Fs.Vtech
import Mountin.Fs.ResearchUnix
import Mountin.Partition.Arithmetic
import Mountin.Detect.Compile
import Mountin.Partition.UbiPlacement
import Mountin.Partition.RdbList
import Mountin.Partition.Atari
import Mountin.Partition.Cumana
import Mountin.Partition.Aix
import Mountin.Partition.Plan9
import Mountin.Basic.SiblingTree
import Mountin.Disk.DmsDeep
import Mountin.Basic.CodeTree
import Mountin.Arc.BinHex
import Mountin.Arc.Szdd
import Mountin.Basic.Worklist
import Mountin.Fs.HighSierra
import Mountin.Fs.ProdosCapacity
import Mountin.Fs.HpLif
import Mountin.Relay.SerialRelay
import Mountin.Build.Download
import Mountin.Build.GarbageCollection
import Mountin.Partition.Labels
import Mountin.Partition.SolarisX86Vtoc
