import BtreeRedis.Tree.Progress
import BtreeRedis.Tree.Conversions
import BtreeRedis.Tree.SplitRoom
import BtreeRedis.Tree.DenseScan
import BtreeRedis.Tree.DenseSplit
import BtreeRedis.Tree.DensifySplit
import BtreeRedis.Tree.BasicNodes
import BtreeRedis.Tree.ArrayRoom
import BtreeRedis.Tree.Descend
import BtreeRedis.Tree.Wrapper
import BtreeRedis.Hash.Placed
import BtreeRedis.Hash.Simd
import BtreeRedis.Hash.Crc
import BtreeRedis.Adaptive.Transparent
import BtreeRedis.Headed.Layout
import BtreeRedis.Dense.LeastGreater
import BtreeRedis.Dense2.Split
import BtreeRedis.Dense2.Scan
import BtreeRedis.Head.Merge
import BtreeRedis.Resp.Session
import BtreeRedis.Resp.Integers
import BtreeRedis.Server.ReadOnly
import BtreeRedis.Server.MultiGet
import BtreeRedis.Server.LexRange
import BtreeRedis.Server.Pipeline
